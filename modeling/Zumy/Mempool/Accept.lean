/-
  Zumy.Mempool.Accept — main.cpp: `AcceptToMemoryPoolWorker`, and what its dry run leaves out
  (with `CheckInputs` and `LimitMempoolSize`).

  `AcceptEnv` is the node's state apart from the pool. The functions of the transaction that
  it has are the ones the checks call; those that look at coins get the view. Why a
  transaction is refused is left out, and so is the rate limit of free transactions: both
  callers here pass `fLimitFree` as false. The indexes are on.

  - `check_passed`: what has been found of the pool when the checks of both runs are passed.
  - `checkTxInputs_iff`, `checkScripts_iff`: what `CheckInputs` asks for.
-/
import Zumy.Mempool.Departures
import Zumy.Mempool.Limits
import Zumy.Mempool.Select

namespace Zumy.Mempool

open Zumy.Lib Zumy.Blocks Relation CTxMemPool
open Coins (CCoins)

def maxBlockSize : Nat := 4194304

def coinbaseMaturity : Int := 10

/-- `MAX_BLOCK_SIZE / 50 / 5` -/
def maxStandardTxSigops : Nat := 16777

def maxDescendantsToVisit : Int := 100

def mandatoryScriptVerifyFlags : Nat := 2 ^ 0

/-- With P2SH: STRICTENC, DERSIG, LOW_S, NULLDUMMY, MINIMALDATA, DISCOURAGE_UPGRADABLE_NOPS,
    CLEANSTACK, CHECKLOCKTIMEVERIFY and CHECKSEQUENCEVERIFY. -/
def standardScriptVerifyFlags : Nat := 2 ^ 0 + 2 ^ 1 + 2 ^ 2 + 2 ^ 3 + 2 ^ 4 + 2 ^ 6 + 2 ^ 7 + 2 ^ 8 + 2 ^ 9 + 2 ^ 10

/-- `GetCoins` of a view. -/
abbrev View := Uint256 → Option CCoins

structure AcceptEnv where
  fRequireStandard : Bool
  /-- `VersionBitsTipState` of the CSV deployment is `THRESHOLD_ACTIVE`. -/
  csvActive : Bool
  isStandardTx : CTransaction → Bool
  checkFinalTx : CTransaction → Bool
  hasTxLockRequest : Uint256 → Bool
  /-- `CTxLockRequest::IsValid` -/
  isLockRequestValid : CTransaction → Bool
  getLockedOutPointTxHash : COutPoint → Option Uint256
  fEnableReplacement : Bool
  /-- `pcoinsTip->GetCoins` -/
  getCoins : View
  checkSequenceLocks : View → CTransaction → Bool
  areInputsStandard : View → CTransaction → Bool
  /-- `GetLegacySigOpCount` and `GetP2SHSigOpCount` -/
  sigOpCount : View → CTransaction → Nat
  nBytesPerSigOp : Nat
  getTxSize : CTransaction → Nat
  /-- `GetMinFee` of the pool: satoshis for 1000 bytes. -/
  minFee : Int
  fRelayPriority : Bool
  minRelayTxFee : Int
  /-- `AllowFree` of the priority in the next block. -/
  allowFree : View → CTransaction → Bool
  limits : Limits
  /-- `GetSpendHeight` -/
  nSpendHeight : Int
  /-- `VerifyScript`, by the two scripts, the flags, and the input of a transaction. -/
  verifyScript : CScript → CScript → Nat → CTransaction → Nat → Bool
  getTime : Int
  /-- `-mempoolexpiry`, in seconds. -/
  mempoolExpiry : Int
  /-- What `TrimToSize` takes. -/
  evicted : List Uint256
  GetOutputFor : COutPoint → CTxOut

/-- `CFeeRate` of a fee and a size. -/
def feeRate (nFeePaid : CAmount) (nSize : Int) : Int := if 0 < nSize then (nFeePaid * 1000).tdiv nSize else 0

/-! ## The view -/

/-- `MEMPOOL_HEIGHT` -/
def mempoolHeight : Int := 0x7FFFFFFF

namespace AcceptEnv

variable (env : AcceptEnv) (s : CTxMemPool) (tx : CTransaction)

/-- `CCoinsViewMemPool::GetCoins` -/
def view : View := fun txid =>
  match s.mapTx[txid]? with
  | some e => some (CCoins.fromTx e.tx mempoolHeight)
  | none => (env.getCoins txid).bind CCoins.unspent

end AcceptEnv

namespace View

variable (view : View) (tx : CTransaction)

def haveCoins (txid : Uint256) : Bool := (view txid).any fun coins => !coins.vout.isEmpty

def output (prevout : COutPoint) : Option CTxOut :=
  (view prevout.hash).bind fun coins => if coins.isAvailable prevout.n then coins.vout[prevout.n]? else none

def haveInputs : Bool := tx.isCoinBase || tx.vin.all fun txin => (view.output txin.prevout).isSome

def getValueIn : CAmount :=
  if tx.isCoinBase then 0 else (tx.vin.map fun txin => (view.output txin.prevout).elim 0 (·.nValue)).sum

end View

/-! ## `CheckInputs` -/

namespace AcceptEnv

variable (env : AcceptEnv) (view : View) (tx : CTransaction)

/-- One turn of `CheckTxInputs`. -/
def checkTxInput (nValueIn : CAmount) (txin : CTxIn) : Option CAmount :=
  (view txin.prevout.hash).bind fun coins =>
    -- If prev is coinbase, check that it's matured
    if coins.fCoinBase && decide (env.nSpendHeight - coins.nHeight < coinbaseMaturity) then none
    else
      -- Check for negative or overflow input values
      (coins.vout[txin.prevout.n]?).bind fun out => addValue nValueIn out

def checkTxInputs : Bool :=
  view.haveInputs tx &&
    match tx.vin.foldlM (env.checkTxInput view) 0, getValueOut tx.vout with
    | some nValueIn, some nValueOut => decide (nValueOut ≤ nValueIn) && moneyRange (nValueIn - nValueOut)
    | _, _ => false

/-- `CScriptCheck`, for each input. -/
def checkScripts (flags : Nat) : Bool :=
  tx.vin.zipIdx.all fun (txin, nIn) =>
    (view.output txin.prevout).any fun out => env.verifyScript txin.scriptSig out.scriptPubKey flags tx nIn

/-- With `fScriptChecks`. -/
def checkInputs (flags : Nat) : Bool := tx.isCoinBase || (env.checkTxInputs view tx && env.checkScripts view tx flags)

end AcceptEnv

/-! ## The checks of both runs -/

namespace AcceptEnv

variable (env : AcceptEnv) (s : CTxMemPool) (tx : CTransaction)

def checkAlone : Bool :=
  checkTransaction tx && decide (env.getTxSize tx ≤ maxBlockSize) && !tx.isCoinBase &&
    !(env.fRequireStandard && decide (2 ≤ tx.nVersion) && !env.csvActive) &&
    !(env.fRequireStandard && !env.isStandardTx tx) && env.checkFinalTx tx

/-- It is a valid lock request, if it is one, and no input is locked for another transaction. -/
def checkLocks : Bool :=
  !(env.hasTxLockRequest tx.hash && !env.isLockRequestValid tx) &&
    tx.vin.all fun txin => !(env.getLockedOutPointTxHash txin.prevout).any (· != tx.hash)

def replacementOptOut (conflicting : Uint256) : Bool :=
  !(env.fEnableReplacement && (s.mapTx[conflicting]?).any fun e => e.tx.vin.any fun txin => decide (txin.nSequence < 2 ^ 32 - 2))

/-- `setConflicts`; `none` where a conflict is not replaced. -/
def findConflicts : List CTxIn → SetEntries → Option SetEntries
  | [], setConflicts => some setConflicts
  | txin :: vin, setConflicts =>
    match s.mapNextTx[txin.prevout]? with
    | none => findConflicts vin setConflicts
    | some conflicting =>
      if conflicting ∈ setConflicts then findConflicts vin setConflicts
      -- InstantSend txes are not replacable
      else if env.hasTxLockRequest conflicting || env.hasTxLockRequest tx.hash then none
      else if env.replacementOptOut s conflicting then none
      else findConflicts vin (insert conflicting setConflicts)

/-- The transaction is new, its inputs are there, and it can be mined in the next block. -/
def checkView : Bool :=
  let view := env.view s
  !view.haveCoins tx.hash && tx.vin.all (fun txin => view.haveCoins txin.prevout.hash) && view.haveInputs tx &&
    env.checkSequenceLocks view tx && !(env.fRequireStandard && !env.areInputsStandard view tx)

def valueOut : CAmount := (getValueOut tx.vout).getD 0

/-- `nFees` -/
def fees : CAmount := (env.view s).getValueIn tx - valueOut tx

/-- `nModifiedFees` -/
def modifiedFees : CAmount := env.fees s tx + (s.mapDeltas[tx.hash]?).getD 0

def entry : CTxMemPoolEntry := .new tx (env.fees s tx) env.getTime (env.getTxSize tx)

def checkSigOps : Bool :=
  let nSigOps := env.sigOpCount (env.view s) tx
  !(decide (maxStandardTxSigops < nSigOps) ||
    (decide (env.nBytesPerSigOp ≠ 0) && decide (env.getTxSize tx / env.nBytesPerSigOp < nSigOps)))

def checkFees (fRejectAbsurdFee : Bool) : Bool :=
  let nSize := env.getTxSize tx
  let mempoolRejectFee := getFee env.minFee nSize
  let relayFee := getFee env.minRelayTxFee nSize
  !(decide (0 < mempoolRejectFee) && decide (env.modifiedFees s tx < mempoolRejectFee)) &&
    -- Require that free transactions have sufficient priority to be mined in the next block.
    !(env.fRelayPriority && decide (env.modifiedFees s tx < relayFee) && !env.allowFree (env.view s) tx) &&
    !(fRejectAbsurdFee && decide (relayFee * 10000 < env.fees s tx))

/-- What the loop over the conflicts adds up: `setConflictsParents` and `nConflictingCount`. -/
def weighConflict (acc : SetEntries × Int) (hashConflicting : Uint256) : Option (SetEntries × Int) :=
  match s.mapTx[hashConflicting]? with
  | none => some acc
  | some mi =>
    if mi.isDirty then none
    -- Don't allow the replacement to reduce the feerate of the mempool.
    else if feeRate (env.modifiedFees s tx) (env.getTxSize tx) ≤ feeRate mi.getModifiedFee mi.nTxSize then none
    else some (acc.1 ∪ (mi.tx.vin.map (·.prevout.hash)).toFinset, acc.2 + mi.nCountWithDescendants)

/-- The replacement pays more than what it replaces, and spends no output of the pool that those do not. -/
def replaces (allConflicting setConflictsParents : SetEntries) : Bool :=
  let nConflictingFees := ∑ it ∈ allConflicting, s.modifiedFee it
  tx.vin.all (fun txin => decide (txin.prevout.hash ∈ setConflictsParents) || !s.mapTx.contains txin.prevout.hash) &&
    decide (nConflictingFees ≤ env.modifiedFees s tx) &&
    decide (getFee env.minRelayTxFee (env.getTxSize tx) ≤ env.modifiedFees s tx - nConflictingFees)

/-- `allConflicting`; `none` where it is not rational to replace them. -/
def conflicting (setConflicts : SetEntries) : Option SetEntries :=
  if setConflicts = ∅ then some ∅
  else
    ((setConflicts.sort (· ≤ ·)).foldlM (env.weighConflict s tx) (∅, 0)).bind fun (setConflictsParents, nConflictingCount) =>
      if nConflictingCount ≤ maxDescendantsToVisit then
        let allConflicting := s.calculateAllDescendants (setConflicts.filter (s.mapTx.contains ·))
        if env.replaces s tx allConflicting setConflictsParents then some allConflicting else none
      else none

/-- What is known of a transaction that has passed: `setAncestors` and `allConflicting`. -/
structure Checked where
  setAncestors : SetEntries
  allConflicting : SetEntries

def check (fRejectAbsurdFee : Bool) : Option Checked :=
  if env.checkAlone tx && !s.mapTx.contains tx.hash && env.checkLocks tx then
    (env.findConflicts s tx tx.vin ∅).bind fun setConflicts =>
    if env.checkView s tx && env.checkSigOps s tx && env.checkFees s tx fRejectAbsurdFee then
      (s.searchAncestors env.limits (env.entry s tx) true).bind fun search =>
      -- A transaction that spends outputs that would be replaced by it is invalid.
      if search.returned && decide (Disjoint search.setAncestors setConflicts) then
        (env.conflicting s tx setConflicts).map fun allConflicting => ⟨search.setAncestors, allConflicting⟩
      else none
    else none
  else none

/-! ## The worker -/

/-- `LimitMempoolSize` -/
def limitMempoolSize : CTxMemPool := (s.expire (env.getTime - env.mempoolExpiry)).trimToSize env.evicted

/-- With `fLimitFree` as false. -/
def acceptToMemoryPoolWorker (fOverrideMempoolLimit fRejectAbsurdFee fDryRun : Bool) : Bool × CTxMemPool :=
  match env.check s tx fRejectAbsurdFee with
  | none => (false, s)
  | some checked =>
    -- If we aren't going to actually accept it but just were verifying it, we are fine already
    if fDryRun then (true, s)
    else if !env.checkInputs (env.view s) tx standardScriptVerifyFlags then (false, s)
    else if !env.checkInputs (env.view s) tx mandatoryScriptVerifyFlags then (false, s)
    else
      let pool := s.removeStaged checked.allConflicting
      let pool := pool.addUnchecked (env.entry s tx) checked.setAncestors
      let pool := (pool.addAddressIndex env.GetOutputFor (env.entry s tx)).addSpentIndex env.GetOutputFor (env.entry s tx)
      if !fOverrideMempoolLimit then
        let pool := env.limitMempoolSize pool
        (pool.mapTx.contains tx.hash, pool)
      else (true, pool)

end AcceptEnv

variable {env : AcceptEnv} {s : CTxMemPool} {tx : CTransaction} {setConflicts A : SetEntries} {checked : AcceptEnv.Checked}
  {fOverrideMempoolLimit fRejectAbsurdFee : Bool}

/-! ## What has been found when the checks are passed -/

namespace AcceptEnv

theorem findConflicts_eq {vin : List CTxIn} (h : env.findConflicts s tx vin A = some setConflicts) :
    setConflicts = A ∪ (vin.filterMap fun txin => s.mapNextTx[txin.prevout]?).toFinset := by
  induction vin generalizing A with
  | nil =>
    cases h
    simp
  | cons txin vin ih =>
    unfold findConflicts at h
    cases hnext : s.mapNextTx[txin.prevout]? with
    | none =>
      rw [hnext] at h
      rw [ih h, List.filterMap_cons, hnext]
    | some c =>
      rw [hnext] at h
      dsimp only at h
      rw [List.filterMap_cons, hnext]
      dsimp only
      rw [List.toFinset_cons]
      split at h
      · next hin => rw [ih h, Finset.union_insert, Finset.insert_eq_of_mem (Finset.mem_union_left _ hin)]
      · split at h
        · cases h
        · split at h
          · cases h
          · rw [ih h, Finset.insert_union, Finset.union_insert]

theorem conflicting_eq (hset : setConflicts ⊆ s.ids) {allConflicting : SetEntries}
    (h : env.conflicting s tx setConflicts = some allConflicting) : allConflicting = s.calculateAllDescendants setConflicts := by
  unfold conflicting at h
  split at h
  · next hempty =>
    cases h
    rw [hempty, calculateAllDescendants, Finset.sort_empty, List.foldl_nil]
  · obtain ⟨acc, -, h⟩ := Option.bind_eq_some_iff.1 h
    have hfilter : setConflicts.filter (fun it => s.mapTx.contains it = true) = setConflicts := by
      rw [Finset.filter_eq_self]
      intro it hit
      exact contains_iff.2 (mem_ids.1 (hset hit))
    dsimp only at h
    split at h
    · split at h
      · cases h
        rw [hfilter]
      · cases h
    · cases h

structure Passed (env : AcceptEnv) (s : CTxMemPool) (tx : CTransaction) (checked : Checked) : Prop where
  accepts : accepts s (env.entry s tx) = true
  setAncestors : checked.setAncestors = s.calculateMemPoolAncestors (s.parentsOf tx)
  allConflicting : checked.allConflicting = s.calculateAllDescendants (conflictsOf s tx)
  view : env.checkView s tx = true

theorem check_passed (hs : s.Settled) (h : env.check s tx fRejectAbsurdFee = some checked) : Passed env s tx checked := by
  unfold check at h
  split at h
  swap
  · cases h
  next halone =>
  obtain ⟨setConflicts, hconflicts, h⟩ := Option.bind_eq_some_iff.1 h
  split at h
  swap
  · cases h
  next hview =>
  obtain ⟨search, hsearch, h⟩ := Option.bind_eq_some_iff.1 h
  split at h
  swap
  · cases h
  next hdisjoint =>
  obtain ⟨allConflicting, hall, rfl⟩ := Option.map_eq_some_iff.1 h
  have hset : setConflicts = conflictsOf s tx := by
    rw [findConflicts_eq hconflicts, Finset.empty_union]
    rfl
  have hsub : setConflicts ⊆ s.ids := hset ▸ conflictsOf_subset hs.sound
  rw [Bool.and_eq_true, Bool.and_eq_true, Bool.not_eq_true'] at halone
  rw [Bool.and_eq_true, Bool.and_eq_true] at hview
  rw [Bool.and_eq_true, decide_eq_true_eq] at hdisjoint
  obtain ⟨r, hr, hfound⟩ := searchAncestors_found env.limits (env.entry s tx) hs.poolInv
  rw [hsearch, Option.some.injEq] at hr
  subst hr
  have hanc : search.setAncestors = s.calculateMemPoolAncestors (s.parentsOf tx) := by
    rw [hfound.all hdisjoint.1]
    ext a
    rw [mem_ancestors, mem_ancestors_iff (fun p c hl => (hs.linked.within p c hl).1) hs.linked.parents parentsOf_subset]
    refine ⟨fun ha => ha.2, fun ha => ⟨?_, ha⟩⟩
    obtain ⟨p, hp, hreach⟩ := ha
    exact hs.linked.mem_of_reach (parentsOf_subset hp) hreach
  simp only [checkAlone, Bool.and_eq_true, Bool.not_eq_true'] at halone
  refine ⟨accepts_iff.2 ⟨halone.1.1.1.1.1.1.1, halone.1.1.1.1.1.2, ?_, ?_⟩, hanc, ?_, hview.1.1⟩
  · exact contains_eq_false_iff.1 halone.1.2
  · show Disjoint (s.calculateMemPoolAncestors (s.parentsOf tx)) (conflictsOf s tx)
    rw [← hset, ← hanc]
    exact hdisjoint.2
  · rw [conflicting_eq hsub hall, hset]

theorem Passed.self (h : Passed env s tx checked) : ∀ txin ∈ tx.vin, txin.prevout.hash ≠ tx.hash := by
  intro txin htxin heq
  have hview := h.view
  simp only [checkView, Bool.and_eq_true, Bool.not_eq_true', List.all_eq_true] at hview
  have hhave := hview.1.1.1.2 txin htxin
  rw [heq, hview.1.1.1.1] at hhave
  cases hhave

theorem Passed.haveInputs (h : Passed env s tx checked) : (env.view s).haveInputs tx = true := by
  have hview := h.view
  simp only [checkView, Bool.and_eq_true] at hview
  exact hview.1.1.2

theorem Passed.isCoinBase (h : Passed env s tx checked) : tx.isCoinBase = false := (accepts_iff.1 h.accepts).2.1

theorem Passed.haveOutputs (h : Passed env s tx checked) : ∀ txin ∈ tx.vin, ((env.view s).output txin.prevout).isSome = true := by
  have hview := h.haveInputs
  rw [View.haveInputs, h.isCoinBase, Bool.false_or] at hview
  exact List.all_eq_true.1 hview

theorem Passed.getValueOut (h : Passed env s tx checked) : (getValueOut tx.vout).isSome = true := by
  have htx := (accepts_iff.1 h.accepts).1
  simp only [checkTransaction, Bool.and_eq_true] at htx
  exact htx.1.1.2

/-! ## What the inputs pass -/

def spent (view : View) (tx : CTransaction) : List CTxOut := tx.vin.filterMap fun txin => view.output txin.prevout

def Mature (env : AcceptEnv) (view : View) (tx : CTransaction) : Prop :=
  ∀ txin ∈ tx.vin, ∀ coins, view txin.prevout.hash = some coins → coins.fCoinBase = true →
    coinbaseMaturity ≤ env.nSpendHeight - coins.nHeight

/-- What `CheckInputs` asks of the inputs when they are all there. -/
structure Spendable (env : AcceptEnv) (view : View) (tx : CTransaction) : Prop where
  mature : Mature env view tx
  nonneg : ∀ out ∈ spent view tx, 0 ≤ out.nValue
  range : view.getValueIn tx ≤ maxMoney
  covers : valueOut tx ≤ view.getValueIn tx

theorem output_some {view : View} {prevout : COutPoint} {out : CTxOut} (h : view.output prevout = some out) :
    ∃ coins, view prevout.hash = some coins ∧ coins.vout[prevout.n]? = some out := by
  obtain ⟨coins, hcoins, hout⟩ := Option.bind_eq_some_iff.1 h
  split at hout
  · exact ⟨coins, hcoins, hout⟩
  · cases hout

theorem checkTxInput_eq {view : View} {txin : CTxIn} {coins : CCoins} {out : CTxOut} (nValueIn : CAmount)
    (hcoins : view txin.prevout.hash = some coins) (hout : coins.vout[txin.prevout.n]? = some out)
    (hmature : coins.fCoinBase = true → coinbaseMaturity ≤ env.nSpendHeight - coins.nHeight) :
    env.checkTxInput view nValueIn txin = addValue nValueIn out := by
  unfold checkTxInput
  rw [hcoins, Option.bind_some, if_neg, hout, Option.bind_some]
  rw [Bool.and_eq_true, decide_eq_true_eq]
  intro hyoung
  exact absurd hyoung.2 (Int.not_lt.2 (hmature hyoung.1))

theorem checkTxInput_mature {view : View} {txin : CTxIn} {nValueIn v : CAmount} (h : env.checkTxInput view nValueIn txin = some v)
    {coins : CCoins} (hcoins : view txin.prevout.hash = some coins) (hcoinbase : coins.fCoinBase = true) :
    coinbaseMaturity ≤ env.nSpendHeight - coins.nHeight := by
  unfold checkTxInput at h
  rw [hcoins, Option.bind_some, hcoinbase, Bool.true_and] at h
  split at h
  · cases h
  · next hold => exact Int.not_lt.1 fun hyoung => hold (decide_eq_true hyoung)

theorem foldlM_checkTxInput {view : View} {vin : List CTxIn} {a v : CAmount}
    (hhave : ∀ txin ∈ vin, (view.output txin.prevout).isSome = true) :
    vin.foldlM (env.checkTxInput view) a = some v ↔
      (∀ txin ∈ vin, ∀ coins, view txin.prevout.hash = some coins → coins.fCoinBase = true →
        coinbaseMaturity ≤ env.nSpendHeight - coins.nHeight) ∧
      (vin.filterMap fun txin => view.output txin.prevout).foldlM addValue a = some v := by
  induction vin generalizing a with
  | nil => simp
  | cons txin vin ih =>
    obtain ⟨out, hout⟩ := Option.isSome_iff_exists.1 (hhave txin List.mem_cons_self)
    obtain ⟨coins, hcoins, hvout⟩ := output_some hout
    have hrest (b : CAmount) := ih (a := b) fun t ht => hhave t (List.mem_cons_of_mem txin ht)
    rw [List.foldlM_cons, List.filterMap_cons, hout]
    dsimp only
    rw [List.foldlM_cons, Option.bind_eq_bind, Option.bind_eq_some_iff, Option.bind_eq_some_iff]
    constructor
    · rintro ⟨b, hb, hfold⟩
      obtain ⟨hmature, hsum⟩ := (hrest b).1 hfold
      have hfirst (c : CCoins) (hc : view txin.prevout.hash = some c) (hcoinbase : c.fCoinBase = true) :=
        checkTxInput_mature hb hc hcoinbase
      refine ⟨List.forall_mem_cons.2 ⟨hfirst, hmature⟩, b, ?_, hsum⟩
      rw [← checkTxInput_eq a hcoins hvout (hfirst coins hcoins)]
      exact hb
    · rintro ⟨hmature, b, hb, hsum⟩
      obtain ⟨hfirst, hmature⟩ := List.forall_mem_cons.1 hmature
      refine ⟨b, ?_, (hrest b).2 ⟨hmature, hsum⟩⟩
      rw [checkTxInput_eq a hcoins hvout (hfirst coins hcoins)]
      exact hb

theorem sum_spent {view : View} (hhave : ∀ txin ∈ tx.vin, (view.output txin.prevout).isSome = true)
    (hcoinbase : tx.isCoinBase = false) : ((spent view tx).map (·.nValue)).sum = view.getValueIn tx := by
  unfold View.getValueIn spent
  rw [hcoinbase, if_neg Bool.false_ne_true]
  revert hhave
  induction tx.vin with
  | nil =>
    intro _
    rfl
  | cons txin vin ih =>
    intro hhave
    obtain ⟨out, hout⟩ := Option.isSome_iff_exists.1 (hhave txin List.mem_cons_self)
    rw [List.filterMap_cons, hout]
    dsimp only
    rw [List.map_cons, List.sum_cons, List.map_cons, List.sum_cons, hout, ih fun t ht => hhave t (List.mem_cons_of_mem txin ht)]
    rfl

theorem checkTxInputs_iff {view : View} (hview : view.haveInputs tx = true) (hcoinbase : tx.isCoinBase = false)
    (hout : (getValueOut tx.vout).isSome = true) : env.checkTxInputs view tx = true ↔ Spendable env view tx := by
  obtain ⟨nValueOut, hnValueOut⟩ := Option.isSome_iff_exists.1 hout
  have hhave : ∀ txin ∈ tx.vin, (view.output txin.prevout).isSome = true := by
    rw [View.haveInputs, hcoinbase, Bool.false_or] at hview
    exact List.all_eq_true.1 hview
  have hvalue : valueOut tx = nValueOut := by rw [valueOut, hnValueOut, Option.getD_some]
  have hrange := moneyRange_iff.1 (getValueOut_range hnValueOut)
  have hloop (v : CAmount) : tx.vin.foldlM (env.checkTxInput view) 0 = some v ↔
      Mature env view tx ∧ (∀ out ∈ spent view tx, 0 ≤ out.nValue) ∧ view.getValueIn tx = v ∧ v ≤ maxMoney := by
    rw [foldlM_checkTxInput hhave, ← sum_spent hhave hcoinbase]
    exact and_congr Iff.rfl getValueOut_eq_some_iff
  unfold checkTxInputs
  rw [hview, Bool.true_and, hnValueOut]
  constructor
  · intro h
    cases hin : tx.vin.foldlM (env.checkTxInput view) 0 with
    | none =>
      rw [hin] at h
      cases h
    | some nValueIn =>
      rw [hin] at h
      dsimp only at h
      rw [Bool.and_eq_true, decide_eq_true_eq] at h
      obtain ⟨hmature, hnonneg, rfl, hmax⟩ := (hloop nValueIn).1 hin
      exact ⟨hmature, hnonneg, hmax, hvalue ▸ h.1⟩
  · intro h
    rw [(hloop _).2 ⟨h.mature, h.nonneg, rfl, h.range⟩]
    have hcovers := h.covers
    have hmax := h.range
    rw [hvalue] at hcovers
    dsimp only
    rw [Bool.and_eq_true, decide_eq_true_eq, moneyRange_iff]
    exact ⟨hcovers, Int.sub_nonneg_of_le hcovers, (Int.sub_le_self _ hrange.1).trans hmax⟩

def ScriptsVerify (env : AcceptEnv) (view : View) (tx : CTransaction) (flags : Nat) : Prop :=
  ∀ (nIn : Nat) (txin : CTxIn) (out : CTxOut), tx.vin[nIn]? = some txin → view.output txin.prevout = some out →
    env.verifyScript txin.scriptSig out.scriptPubKey flags tx nIn = true

theorem checkScripts_iff {view : View} {flags : Nat} (hhave : ∀ txin ∈ tx.vin, (view.output txin.prevout).isSome = true) :
    env.checkScripts view tx flags = true ↔ ScriptsVerify env view tx flags := by
  unfold checkScripts ScriptsVerify
  rw [List.all_eq_true]
  constructor
  · intro h nIn txin out htxin hout
    have hin := h (txin, nIn) (List.mk_mem_zipIdx_iff_getElem?.2 htxin)
    dsimp only at hin
    rw [hout, Option.any_some] at hin
    exact hin
  · intro h it hit
    obtain ⟨txin, nIn⟩ := it
    have htxin := List.mk_mem_zipIdx_iff_getElem?.1 hit
    obtain ⟨out, hout⟩ := Option.isSome_iff_exists.1 (hhave txin (List.mem_of_getElem? htxin))
    dsimp only
    rw [hout, Option.any_some]
    exact h nIn txin out htxin hout

/-! ## The two runs -/

theorem dry_run_iff : (env.acceptToMemoryPoolWorker s tx fOverrideMempoolLimit fRejectAbsurdFee true).1 = true ↔
    ∃ checked, env.check s tx fRejectAbsurdFee = some checked := by
  unfold acceptToMemoryPoolWorker
  cases env.check s tx fRejectAbsurdFee with
  | none => simp
  | some checked => simp

/-- `CheckInputs` with both sets of flags. -/
def InputsPass (env : AcceptEnv) (s : CTxMemPool) (tx : CTransaction) : Prop :=
  env.checkInputs (env.view s) tx standardScriptVerifyFlags = true ∧ env.checkInputs (env.view s) tx mandatoryScriptVerifyFlags = true

theorem inputsPass_iff (h : Passed env s tx checked) : InputsPass env s tx ↔ Spendable env (env.view s) tx ∧
    ScriptsVerify env (env.view s) tx standardScriptVerifyFlags ∧ ScriptsVerify env (env.view s) tx mandatoryScriptVerifyFlags := by
  have hinputs (flags : Nat) : env.checkInputs (env.view s) tx flags = true ↔
      Spendable env (env.view s) tx ∧ ScriptsVerify env (env.view s) tx flags := by
    rw [checkInputs, h.isCoinBase, Bool.false_or, Bool.and_eq_true,
      checkTxInputs_iff h.haveInputs h.isCoinBase h.getValueOut, checkScripts_iff h.haveOutputs]
  rw [InputsPass, hinputs, hinputs]
  constructor
  · rintro ⟨⟨hspendable, hstandard⟩, -, hmandatory⟩
    exact ⟨hspendable, hstandard, hmandatory⟩
  · rintro ⟨hspendable, hstandard, hmandatory⟩
    exact ⟨⟨hspendable, hstandard⟩, hspendable, hmandatory⟩

/-- `LimitMempoolSize` takes neither the transaction nor one that it depends on. -/
structure Stays (env : AcceptEnv) (s : CTxMemPool) (tx : CTransaction) : Prop where
  expiry : 0 ≤ env.mempoolExpiry
  kept : tx.hash ∉ env.evicted
  ancestors : ∀ a ∈ s.ancestors tx, ¬ s.Older (env.getTime - env.mempoolExpiry) a ∧ a ∉ env.evicted

theorem worker_refused (h : ¬ InputsPass env s tx) :
    env.acceptToMemoryPoolWorker s tx fOverrideMempoolLimit fRejectAbsurdFee false = (false, s) := by
  unfold acceptToMemoryPoolWorker
  cases env.check s tx fRejectAbsurdFee with
  | none => rfl
  | some checked =>
    dsimp only
    rw [if_neg Bool.false_ne_true]
    cases hstandard : env.checkInputs (env.view s) tx standardScriptVerifyFlags with
    | false => rfl
    | true =>
      cases hmandatory : env.checkInputs (env.view s) tx mandatoryScriptVerifyFlags with
      | false => rfl
      | true => exact absurd ⟨hstandard, hmandatory⟩ h

theorem worker_accepted (hs : s.Settled) (hcheck : env.check s tx fRejectAbsurdFee = some checked) (hinputs : InputsPass env s tx) :
    env.acceptToMemoryPoolWorker s tx false fRejectAbsurdFee false =
      ((env.limitMempoolSize (acceptToMemoryPool env.GetOutputFor s (env.entry s tx))).mapTx.contains tx.hash,
        env.limitMempoolSize (acceptToMemoryPool env.GetOutputFor s (env.entry s tx))) := by
  have hpassed := check_passed hs hcheck
  unfold acceptToMemoryPoolWorker
  rw [hcheck]
  dsimp only
  rw [if_neg Bool.false_ne_true, hinputs.1, hinputs.2, hpassed.setAncestors, hpassed.allConflicting]
  unfold acceptToMemoryPool
  rw [if_pos hpassed.accepts]
  rfl

/-- After a dry run that accepts, a real one does as well where the inputs pass, and the
    transaction stays within the limits of the pool. -/
theorem accepted_iff (hs : s.Settled)
    (hdry : (env.acceptToMemoryPoolWorker s tx false fRejectAbsurdFee true).1 = true) :
    (env.acceptToMemoryPoolWorker s tx false fRejectAbsurdFee false).1 = true ↔ InputsPass env s tx ∧ Stays env s tx := by
  obtain ⟨checked, hcheck⟩ := dry_run_iff.1 hdry
  have hpassed := check_passed hs hcheck
  by_cases hinputs : InputsPass env s tx
  · have hroom := mem_ids_accepted env.GetOutputFor hs.sound hs.linked hpassed.accepts hpassed.self (Int.natCast_nonneg _)
      (env.getTime - env.mempoolExpiry) env.evicted
    rw [worker_accepted hs hcheck hinputs, and_iff_right hinputs]
    dsimp only
    rw [contains_iff, ← mem_ids]
    refine hroom.trans ⟨fun ⟨⟨htime, hkept⟩, hall⟩ => ⟨by omega, hkept, fun a ha => ?_⟩, fun h => ⟨⟨?_, h.kept⟩, fun p hp x hx => ?_⟩⟩
    · obtain ⟨-, p, hp, hreach⟩ := mem_ancestors.1 ha
      exact hall p hp a hreach
    · have hexpiry := h.expiry
      omega
    · exact h.ancestors x (mem_ancestors.2 ⟨hs.linked.mem_of_reach (parentsOf_subset hp) hx, p, hp, hx⟩)
  · rw [worker_refused hinputs]
    simp [hinputs]

end AcceptEnv

end Zumy.Mempool
