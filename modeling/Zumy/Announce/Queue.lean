/-
  Zumy.Announce.Queue — masternodeman.cpp: the masternode that is paid next
  (`GetNextMasternodeInQueueForPayment`, with `IsScheduled` of masternode-payments.cpp).

  The masternodes that may be paid stand in a queue by the block that last paid them. Among
  the first of them, a tenth of the enabled masternodes but at least one, the one with the
  highest score for the block 101 back is paid. When fewer than a third of the enabled
  masternodes are in the queue, those that signed lately are let in too.
-/
import Zumy.Announce.Ranks
import Zumy.Lib.Best
import Zumy.Lib.Rounding
import Zumy.Payments.Coinbase

namespace Zumy.Payments

/-- `IsScheduled`, of the masternode with this script. -/
def CMasternodePayments.isScheduled (s : CMasternodePayments) (mnpayee : CScript) (nNotBlockHeight : Int) : Bool :=
  match s.pCurrentBlockIndex with
  | none => false
  | some nHeight => (List.range 9).any fun i =>
      nHeight + i != nNotBlockHeight && s.getBlockPayee (nHeight + i) == some mnpayee

end Zumy.Payments

namespace Zumy.Announce

open Lib
open Payments (CMasternodePayments)

structure PaidMasternode extends CMasternode where
  nBlockLastPaid : Int
  nCacheCollateralBlock : Int
  deriving DecidableEq, Repr

structure QueueEnv where
  env : Env
  hs : Hashes
  /-- `SPORK_14_REQUIRE_SENTINEL_FLAG` is active. -/
  fSentinel : Bool
  /-- `SPORK_10_MASTERNODE_PAY_UPDATED_NODES` is active. -/
  payUpdatedNodes : Bool
  mnpayments : CMasternodePayments
  /-- The height of the coins of a transaction, in the pool or on the chain. -/
  coinsHeight : Uint256 → Option Int
  /-- `GetMinMasternodePaymentsProto` answers with the spork's state. -/
  proto : env.getMinMasternodePaymentsProto = if payUpdatedNodes then 1 else 0

/-! ## The wait -/

/-- A double, in units of `2 ^ -51`, nearest to a number in these units. -/
def toDouble (x : Int) : Int := roundSigned 53 x

/-- `2.6`, in units of `2 ^ -51`. -/
def twoPointSix : Int := 5854679515581645

/-- `sigTime + (nMnCount*2.6*60) > GetAdjustedTime()`. -/
def tooNew (nMnCount sigTime adjustedTime : Int) : Bool :=
  let wait := toDouble (toDouble (nMnCount * twoPointSix) * 60)
  toDouble (toDouble (sigTime * 2 ^ 51) + wait) > toDouble (adjustedTime * 2 ^ 51)

/-! ## The queue -/

namespace QueueEnv

variable (q : QueueEnv) (vMasternodes : List PaidMasternode) (nBlockHeight : Int) (fFilterSigTime : Bool)

def getInputAge (txin : CTxIn) : Int :=
  match q.coinsHeight txin.prevout.hash with
  | none => -1
  | some nHeight => if nHeight < 0 then 0 else q.env.height - nHeight + 1

/-- `GetCollateralAge` of a masternode, and the masternode with the block in its cache. -/
def getCollateralAge (mn : PaidMasternode) : Int × PaidMasternode :=
  if q.env.chain = [] then (-1, mn)
  else
    let nInputAge := q.getInputAge mn.vin
    if mn.nCacheCollateralBlock = 0 ∧ nInputAge ≤ 0 then (nInputAge, mn)
    else
      let mn := if mn.nCacheCollateralBlock = 0 then { mn with nCacheCollateralBlock := q.env.height - nInputAge } else mn
      (q.env.height - mn.nCacheCollateralBlock, mn)

def countEnabled : Int :=
  (vMasternodes.countP fun mn => !(mn.nProtocolVersion < q.env.getMinMasternodePaymentsProto || !mn.isEnabled) : Nat)

def collateralScript (mn : PaidMasternode) : CScript := getScriptForDestination (.keyID (q.env.keyID mn.pubKeyCollateralAddress))

/-- The loop's `continue`s, in order. -/
def passesOver (nMnCount : Int) (mn : PaidMasternode) : Bool :=
  if !mn.isValidForPayment q.fSentinel then true
  else if mn.nProtocolVersion < q.env.getMinMasternodePaymentsProto then true
  else if q.mnpayments.isScheduled (q.collateralScript mn) nBlockHeight then true
  else if fFilterSigTime && tooNew nMnCount mn.sigTime q.env.getAdjustedTime then true
  else decide ((q.getCollateralAge mn).1 < nMnCount)

/-- `vecMasternodeLastPaid` -/
def queue : List PaidMasternode :=
  vMasternodes.filter fun mn => !q.passesOver nBlockHeight fFilterSigTime (q.countEnabled vMasternodes) mn

end QueueEnv

/-- `CompareLastPaidBlock` -/
def lessLastPaid (mn1 mn2 : PaidMasternode) : Bool :=
  if mn1.nBlockLastPaid ≠ mn2.nBlockLastPaid then mn1.nBlockLastPaid < mn2.nBlockLastPaid else mn1.vin.less mn2.vin

def PaidBefore (mn1 mn2 : PaidMasternode) : Prop := lessLastPaid mn2 mn1 = false

instance : DecidableRel PaidBefore := fun _ _ => inferInstanceAs (Decidable (_ = false))

namespace QueueEnv

variable (q : QueueEnv) (vMasternodes : List PaidMasternode) (nBlockHeight : Int) (fFilterSigTime : Bool)

def tenth : Nat := max 1 (q.countEnabled vMasternodes / 10).toNat

def payOldest (vecMasternodeLastPaid : List PaidMasternode) : Option PaidMasternode :=
  match q.env.getBlockHash (nBlockHeight - 101) with
  | none => none
  | some blockHash =>
    (((vecMasternodeLastPaid.insertionSort PaidBefore).take (q.tenth vMasternodes)).foldl
      (keepBetter fun mn => some (mn.calculateScore q.hs blockHash)) (none, 0)).1

/-- `GetNextMasternodeInQueueForPayment`, with `nCount`. The call without the filter does not
    call itself again. -/
def getNextMasternodeInQueueForPayment : Option PaidMasternode × Nat :=
  let vecMasternodeLastPaid := q.queue vMasternodes nBlockHeight fFilterSigTime
  if fFilterSigTime && decide ((vecMasternodeLastPaid.length : Int) < q.countEnabled vMasternodes / 3) then
    let vecMasternodeLastPaid := q.queue vMasternodes nBlockHeight false
    (q.payOldest vMasternodes nBlockHeight vecMasternodeLastPaid, vecMasternodeLastPaid.length)
  else (q.payOldest vMasternodes nBlockHeight vecMasternodeLastPaid, vecMasternodeLastPaid.length)

end QueueEnv

/-! ## What the wait is -/

section

variable {q : QueueEnv} {vMasternodes : List PaidMasternode} {nBlockHeight : Int} {fFilterSigTime : Bool} {mn : PaidMasternode}

theorem toDouble_scaled {t : Nat} (h : t < 2 ^ 53) : toDouble ((t : Int) * 2 ^ 51) = (t : Int) * 2 ^ 51 := by
  have hcast : (t : Int) * 2 ^ 51 = ((t * 2 ^ 51 : Nat) : Int) := by omega
  rw [toDouble, hcast, roundSigned_natCast, roundTo_mul_pow (by decide) h]

/-- `2.6` is a little more than 13/5, and the products are rounded: the wait is wrong by less
    than a tenth of a microsecond. -/
theorem wait_close {n : Nat} (h : n < 2 ^ 20) : ∃ w : Nat, toDouble (toDouble ((n : Int) * twoPointSix) * 60) = w ∧
    w < n * 156 * 2 ^ 51 + 2 ^ 27 ∧ n * 156 * 2 ^ 51 < w + 2 ^ 27 := by
  have hfirst : (n : Int) * twoPointSix = ((n * 5854679515581645 : Nat) : Int) := by
    rw [twoPointSix]
    omega
  have hsecond : ((roundTo 53 (n * 5854679515581645) : Nat) : Int) * 60 =
    ((roundTo 53 (n * 5854679515581645) * 60 : Nat) : Int) := by
    omega
  refine ⟨roundTo 53 (roundTo 53 (n * 5854679515581645) * 60), ?_, ?_⟩
  · rw [toDouble, toDouble, hfirst, roundSigned_natCast, hsecond, roundSigned_natCast]
  · obtain ⟨hle, hge⟩ := roundTo_close (p := 53) (n := n * 5854679515581645)
    have hplace : lastPlace 53 (n * 5854679515581645) ≤ 2 ^ 20 := lastPlace_le (by decide) (by omega)
    generalize roundTo 53 (n * 5854679515581645) = r at hle hge ⊢
    obtain ⟨hle', hge'⟩ := roundTo_close (p := 53) (n := r * 60)
    have hplace' : lastPlace 53 (r * 60) ≤ 2 ^ 26 := lastPlace_le (by decide) (by omega)
    omega

theorem due_iff {n : Nat} {sigTime adjustedTime : Int} (hn : n < 2 ^ 20) (hsig : 2 ^ 30 ≤ sigTime) (hsig' : sigTime < 2 ^ 40)
    (hnow : 0 ≤ adjustedTime) (hnow' : adjustedTime < 2 ^ 53) :
    tooNew n sigTime adjustedTime = true ↔ adjustedTime < sigTime + 156 * n := by
  obtain ⟨t, rfl⟩ := Int.eq_ofNat_of_zero_le (by omega : 0 ≤ sigTime)
  obtain ⟨now, rfl⟩ := Int.eq_ofNat_of_zero_le hnow
  obtain ⟨w, hw, hlt, hgt⟩ := wait_close hn
  have ht : t < 2 ^ 40 := by omega
  have hwait : w < 2 ^ 80 := by omega
  have hbound : t * 2 ^ 51 + w < 2 ^ (53 + 51) :=
    calc t * 2 ^ 51 + w < 2 ^ 40 * 2 ^ 51 + 2 ^ 80 := Nat.add_lt_add (Nat.mul_lt_mul_of_pos_right ht (by decide)) hwait
      _ < 2 ^ (53 + 51) := by decide
  have hsum : (t : Int) * 2 ^ 51 + (w : Int) = ((t * 2 ^ 51 + w : Nat) : Int) := by omega
  have hplace : 2 ^ 28 ≤ lastPlace 53 (t * 2 ^ 51 + w) := le_lastPlace (by decide) (by omega)
  have hdvd : lastPlace 53 (t * 2 ^ 51 + w) ∣ 2 ^ 51 := lastPlace_dvd (k := 51) (by decide) hbound
  have hround : roundTo 53 (t * 2 ^ 51 + w) = (t + n * 156) * 2 ^ 51 :=
    roundTo_eq_of_near (Nat.dvd_mul_left_of_dvd hdvd _) (by omega) (by omega)
  unfold tooNew
  dsimp only
  rw [hw, toDouble_scaled (by omega), toDouble_scaled (by omega), hsum, toDouble, roundSigned_natCast, hround, decide_eq_true_eq]
  push_cast
  omega

theorem due_after_780_seconds : tooNew 5 (2 ^ 30) (2 ^ 30 + 780) = true ↔ (2 ^ 30 + 780 : Int) < 2 ^ 30 + 156 * (5 : Nat) :=
  due_iff (n := 5) (by decide) (by decide) (by decide) (by decide) (by decide)

/-! ## Who stands in the queue -/

structure Eligible (q : QueueEnv) (vMasternodes : List PaidMasternode) (nBlockHeight : Int) (fFilterSigTime : Bool)
    (mn : PaidMasternode) : Prop where
  listed : mn ∈ vMasternodes
  valid : mn.isEnabled = true ∨ (q.fSentinel = false ∧ mn.isWatchdogExpired = true)
  protocol : q.env.getMinMasternodePaymentsProto ≤ mn.nProtocolVersion
  unscheduled : ∀ tip, q.mnpayments.pCurrentBlockIndex = some tip → ∀ h, tip ≤ h → h ≤ tip + 8 → h ≠ nBlockHeight →
    q.mnpayments.getBlockPayee h ≠ some (q.collateralScript mn)
  signed : fFilterSigTime = true → tooNew (q.countEnabled vMasternodes) mn.sigTime q.env.getAdjustedTime = false
  confirmed : q.countEnabled vMasternodes ≤ (q.getCollateralAge mn).1

theorem not_scheduled_iff {s : CMasternodePayments} {mnpayee : CScript} : s.isScheduled mnpayee nBlockHeight = false ↔
    ∀ tip, s.pCurrentBlockIndex = some tip → ∀ h, tip ≤ h → h ≤ tip + 8 → h ≠ nBlockHeight →
      s.getBlockPayee h ≠ some mnpayee := by
  unfold CMasternodePayments.isScheduled
  cases s.pCurrentBlockIndex with
  | none => simp
  | some tip =>
    simp only [List.any_eq_false, List.mem_range, Bool.and_eq_true, bne_iff_ne, beq_iff_eq, not_and, Option.some.injEq]
    constructor
    · rintro hall _ rfl h hle hge hne
      have hi := hall (h - tip).toNat (by omega)
      have heq : tip + ((h - tip).toNat : Int) = h := by omega
      rw [heq] at hi
      exact hi hne
    · intro hall i hi hne
      exact hall tip rfl (tip + i) (by omega) (by omega) hne

theorem mem_queue_iff : mn ∈ q.queue vMasternodes nBlockHeight fFilterSigTime ↔
    Eligible q vMasternodes nBlockHeight fFilterSigTime mn := by
  have hvalid : mn.isValidForPayment q.fSentinel = true ↔
      mn.isEnabled = true ∨ (q.fSentinel = false ∧ mn.isWatchdogExpired = true) := by
    simp [CMasternode.isValidForPayment]
  have hpasses : q.passesOver nBlockHeight fFilterSigTime (q.countEnabled vMasternodes) mn = false ↔
      mn.isValidForPayment q.fSentinel = true ∧ q.env.getMinMasternodePaymentsProto ≤ mn.nProtocolVersion ∧
      q.mnpayments.isScheduled (q.collateralScript mn) nBlockHeight = false ∧
      (fFilterSigTime = true → tooNew (q.countEnabled vMasternodes) mn.sigTime q.env.getAdjustedTime = false) ∧
      q.countEnabled vMasternodes ≤ (q.getCollateralAge mn).1 := by
    unfold QueueEnv.passesOver
    split_ifs <;> simp_all
  rw [QueueEnv.queue, List.mem_filter, Bool.not_eq_true', hpasses, hvalid, not_scheduled_iff]
  constructor
  · rintro ⟨hlisted, hvalid, hprotocol, hunscheduled, hsigned, hconfirmed⟩
    exact ⟨hlisted, hvalid, hprotocol, hunscheduled, hsigned, hconfirmed⟩
  · intro h
    exact ⟨h.listed, h.valid, h.protocol, h.unscheduled, h.signed, h.confirmed⟩

theorem getMinMasternodePaymentsProto_le : q.env.getMinMasternodePaymentsProto ≤ 1 := by
  rw [q.proto]
  split <;> decide

/-! ## Who is paid -/

/-- The filter on the signing time, unless it leaves less than a third of the enabled ones. -/
def QueueEnv.filtersSigTime (q : QueueEnv) (vMasternodes : List PaidMasternode) (nBlockHeight : Int)
    (fFilterSigTime : Bool) : Bool :=
  fFilterSigTime && decide (q.countEnabled vMasternodes / 3 ≤ (q.queue vMasternodes nBlockHeight true).length)

def QueueEnv.inFrontOf (q : QueueEnv) (vMasternodes : List PaidMasternode) (nBlockHeight : Int) (fFilterSigTime : Bool)
    (mn : PaidMasternode) : Nat :=
  (q.queue vMasternodes nBlockHeight fFilterSigTime).countP fun other => lessLastPaid other mn

theorem getNext_eq : q.getNextMasternodeInQueueForPayment vMasternodes nBlockHeight fFilterSigTime =
    (q.payOldest vMasternodes nBlockHeight
        (q.queue vMasternodes nBlockHeight (q.filtersSigTime vMasternodes nBlockHeight fFilterSigTime)),
      (q.queue vMasternodes nBlockHeight (q.filtersSigTime vMasternodes nBlockHeight fFilterSigTime)).length) := by
  unfold QueueEnv.getNextMasternodeInQueueForPayment QueueEnv.filtersSigTime
  cases fFilterSigTime with
  | false => rfl
  | true =>
    dsimp only
    rw [Bool.true_and, Bool.true_and]
    by_cases hshort : ((q.queue vMasternodes nBlockHeight true).length : Int) < q.countEnabled vMasternodes / 3
    · rw [decide_eq_true hshort, decide_eq_false (not_le.2 hshort)]
      rfl
    · rw [decide_eq_false hshort, decide_eq_true (not_lt.1 hshort)]
      rfl

theorem paidBefore_iff {mn1 mn2 : PaidMasternode} : PaidBefore mn1 mn2 ↔ mn1.nBlockLastPaid < mn2.nBlockLastPaid ∨
    (mn1.nBlockLastPaid = mn2.nBlockLastPaid ∧ (compare mn1.vin mn2.vin).isLE = true) := by
  unfold PaidBefore lessLastPaid
  split
  next hne =>
    rw [decide_eq_false_iff_not]
    omega
  next heq =>
    rw [not_not] at heq
    rw [less_eq_false_iff, heq]
    simp

theorem paidBefore_total (mn1 mn2 : PaidMasternode) : PaidBefore mn1 mn2 ∨ PaidBefore mn2 mn1 := by
  rw [paidBefore_iff, paidBefore_iff]
  exact lexicographic_total PaidMasternode.nBlockLastPaid (fun a b => vin_isLE_total a.toCMasternode b.toCMasternode) mn1 mn2

theorem paidBefore_trans (mn1 mn2 mn3 : PaidMasternode) (h : PaidBefore mn1 mn2) (h' : PaidBefore mn2 mn3) :
    PaidBefore mn1 mn3 := by
  rw [paidBefore_iff] at h h' ⊢
  exact lexicographic_trans PaidMasternode.nBlockLastPaid
    (fun a b c => vin_isLE_trans a.toCMasternode b.toCMasternode c.toCMasternode) h h'

theorem prevout_of_tied {mn1 mn2 : PaidMasternode} (h : PaidBefore mn1 mn2) (h' : PaidBefore mn2 mn1) :
    mn1.vin.prevout = mn2.vin.prevout := by
  rw [paidBefore_iff] at h h'
  have hle : (compare mn1.vin mn2.vin).isLE = true := by
    rcases h with h | h
    · omega
    · exact h.2
  have hge : (compare mn2.vin mn1.vin).isLE = true := by
    rcases h' with h' | h'
    · omega
    · exact h'.2
  exact CTxIn.compare_eq_iff.1 (Std.OrientedCmp.isLE_antisymm hle hge)

theorem inFrontOf_eq : q.inFrontOf vMasternodes nBlockHeight fFilterSigTime mn =
    (q.queue vMasternodes nBlockHeight fFilterSigTime).countP fun other => !decide (PaidBefore mn other) := by
  unfold QueueEnv.inFrontOf
  congr 1
  funext other
  by_cases hless : lessLastPaid other mn = true <;> simp [PaidBefore, hless]

/-- Those that the loop looks at have few in front of them, and the others that do score like one of those. -/
theorem scores_looked_at {blockHash : Uint256} {n : Nat} :
    (∃ other ∈ ((q.queue vMasternodes nBlockHeight fFilterSigTime).insertionSort PaidBefore).take (q.tenth vMasternodes),
        other.calculateScore q.hs blockHash = n) ↔
      ∃ other, Eligible q vMasternodes nBlockHeight fFilterSigTime other ∧
        q.inFrontOf vMasternodes nBlockHeight fFilterSigTime other < q.tenth vMasternodes ∧
        other.calculateScore q.hs blockHash = n := by
  constructor
  · rintro ⟨other, hother, hscore⟩
    refine ⟨other, mem_queue_iff.1 ((List.mem_insertionSort _).1 (List.mem_of_mem_take hother)), ?_, hscore⟩
    rw [inFrontOf_eq]
    exact countP_lt_of_mem_take paidBefore_total paidBefore_trans hother
  · rintro ⟨other, heligible, hfront, hscore⟩
    rw [inFrontOf_eq] at hfront
    obtain ⟨tied, htied, hle, hge⟩ :=
      exists_tied_of_countP_lt paidBefore_total paidBefore_trans (mem_queue_iff.2 heligible) hfront
    refine ⟨tied, htied, ?_⟩
    rw [← hscore]
    unfold CMasternode.calculateScore
    rw [prevout_of_tied hle hge]

theorem payOldest_eq_none (h : q.env.getBlockHash (nBlockHeight - 101) = none) (l : List PaidMasternode) :
    q.payOldest vMasternodes nBlockHeight l = none := by
  unfold QueueEnv.payOldest
  rw [h]

/-- A masternode is paid when the block is known and not all of the oldest score zero; the one
    that is paid is the best of them. -/
theorem next_in_queue (q : QueueEnv) (vMasternodes : List PaidMasternode) (nBlockHeight : Int) (fFilterSigTime : Bool) :
    ((q.getNextMasternodeInQueueForPayment vMasternodes nBlockHeight fFilterSigTime).1.isSome = true ↔
      ∃ blockHash mn, q.env.getBlockHash (nBlockHeight - 101) = some blockHash ∧
        Eligible q vMasternodes nBlockHeight (q.filtersSigTime vMasternodes nBlockHeight fFilterSigTime) mn ∧
        q.inFrontOf vMasternodes nBlockHeight (q.filtersSigTime vMasternodes nBlockHeight fFilterSigTime) mn < q.tenth vMasternodes ∧
        mn.calculateScore q.hs blockHash ≠ 0) ∧
    ∀ mn, (q.getNextMasternodeInQueueForPayment vMasternodes nBlockHeight fFilterSigTime).1 = some mn →
      Eligible q vMasternodes nBlockHeight (q.filtersSigTime vMasternodes nBlockHeight fFilterSigTime) mn ∧
      q.inFrontOf vMasternodes nBlockHeight (q.filtersSigTime vMasternodes nBlockHeight fFilterSigTime) mn < q.tenth vMasternodes ∧
      ∀ blockHash, q.env.getBlockHash (nBlockHeight - 101) = some blockHash →
        ∀ other, Eligible q vMasternodes nBlockHeight (q.filtersSigTime vMasternodes nBlockHeight fFilterSigTime) other →
          q.inFrontOf vMasternodes nBlockHeight (q.filtersSigTime vMasternodes nBlockHeight fFilterSigTime) other <
            q.tenth vMasternodes →
          other.calculateScore q.hs blockHash ≤ mn.calculateScore q.hs blockHash := by
  rw [getNext_eq]
  dsimp only
  generalize q.filtersSigTime vMasternodes nBlockHeight fFilterSigTime = fFilter
  cases hblock : q.env.getBlockHash (nBlockHeight - 101) with
  | none =>
    rw [payOldest_eq_none hblock]
    exact ⟨by simp, fun mn h => by cases h⟩
  | some blockHash =>
    have hpay : q.payOldest vMasternodes nBlockHeight (q.queue vMasternodes nBlockHeight fFilter) =
        ((((q.queue vMasternodes nBlockHeight fFilter).insertionSort PaidBefore).take (q.tenth vMasternodes)).foldl
          (keepBetter fun mn => some (mn.calculateScore q.hs blockHash)) (none, 0)).1 := by
      rw [QueueEnv.payOldest, hblock]
    rw [hpay]
    constructor
    · rw [foldl_keepBetter_isSome_iff]
      constructor
      · rintro ⟨a, ha, n, hn, hpos⟩
        obtain ⟨mn, heligible, hfront, hscore⟩ := scores_looked_at.1 ⟨a, ha, Option.some.inj hn⟩
        exact ⟨blockHash, mn, rfl, heligible, hfront, by omega⟩
      · rintro ⟨_, mn, heq, heligible, hfront, hscore⟩
        cases heq
        obtain ⟨other, hother, hsame⟩ := scores_looked_at.2 ⟨mn, heligible, hfront, rfl⟩
        refine ⟨other, hother, other.calculateScore q.hs blockHash, rfl, ?_⟩
        rw [hsame]
        exact Nat.pos_of_ne_zero hscore
    · intro mn hmn
      obtain ⟨l₁, l₂, hlist, hscore, -⟩ := foldl_keepBetter_eq_iff.1 (Prod.ext hmn rfl)
      have hin : mn ∈ ((q.queue vMasternodes nBlockHeight fFilter).insertionSort PaidBefore).take (q.tenth vMasternodes) := by
        rw [hlist]
        simp
      refine ⟨mem_queue_iff.1 ((List.mem_insertionSort _).1 (List.mem_of_mem_take hin)), ?_,
        fun _ heq other heligible hfront => ?_⟩
      · rw [inFrontOf_eq]
        exact countP_lt_of_mem_take paidBefore_total paidBefore_trans hin
      · cases heq
        obtain ⟨tied, htied, hsame⟩ := scores_looked_at.2 ⟨other, heligible, hfront, rfl⟩
        rw [← hsame, Option.some.inj hscore]
        exact foldl_keepBetter_le (none, 0) htied rfl

end

/-! ### A short chain, and a watchdog that has expired -/

def sampleQueue : QueueEnv where
  env := { sampleEnv 1500000000 with getMinMasternodePaymentsProto := 0 }
  hs := sampleHashes
  fSentinel := false
  payUpdatedNodes := false
  mnpayments := Payments.init
  coinsHeight := fun _ => some 1
  proto := rfl

def queued (nActiveState : State) : PaidMasternode where
  toCMasternode :=
    { (Announcement.read ⟨inputOf 1, ⟨[10, 0, 0, 1], 32000⟩, [1], [2], [1], 1000, 80005, nullPing⟩).toMasternode with
      nActiveState := nActiveState }
  nBlockLastPaid := 0
  nCacheCollateralBlock := 0

/-- The hash of the block 101 back is missing; and a masternode is paid that is not enabled. -/
theorem queue_not_served :
    ((queued .enabled).isEnabled = true ∧ Eligible sampleQueue [queued .enabled] 20 true (queued .enabled) ∧
      (sampleQueue.getNextMasternodeInQueueForPayment [queued .enabled] 20 true).1 = none) ∧
    (sampleQueue.getNextMasternodeInQueueForPayment [queued .watchdogExpired] 102 true).1 = some (queued .watchdogExpired) ∧
    (queued .watchdogExpired).isEnabled = false := by
  refine ⟨⟨by decide, mem_queue_iff.1 (by decide +kernel), by decide +kernel⟩, by decide +kernel, by decide⟩

end Zumy.Announce
