/-
  Zumy.Payments.CoinbaseAccepted — when `ConnectBlock` takes the coinbase of `CreateNewBlock`.

  The miner pays the development fund to one address in both its windows; `IsFundRewardValid`
  asks for the old address up to height 375003, in a window of its own. `CreateSuperblock`
  pays what the trigger says, whatever `GetPaymentsLimit` is.
-/
import Zumy.Payments.Coinbase
import Zumy.Governance.SuperblockTriggers

namespace Zumy.Payments

open Lib Governance

/-! ## The payees of a height -/

namespace CMasternodeBlockPayees

variable {b : CMasternodeBlockPayees} {nMasternodePayment : CAmount} {vout : List CTxOut} {script : CScript}

def Elects (b : CMasternodeBlockPayees) (script : CScript) : Prop :=
  ∃ payee ∈ b.vecPayees, mnPaymentsSignaturesRequired ≤ payee.getVoteCount ∧ payee.scriptPubKey = script

theorem foldl_max_lt_iff (l : List CMasternodePayee) (n k : Nat) :
    l.foldl (fun n payee => if payee.getVoteCount ≥ n then payee.getVoteCount else n) n < k ↔
      n < k ∧ ∀ payee ∈ l, payee.getVoteCount < k := by
  induction l generalizing n with
  | nil => simp
  | cons payee l ih =>
    rw [List.foldl_cons, ih, List.forall_mem_cons, ← and_assoc]
    apply and_congr_left
    intro _
    split <;> omega

theorem isTransactionValid_iff : b.isTransactionValid nMasternodePayment vout = true ↔
    (∀ script, ¬ b.Elects script) ∨ ∃ script, b.Elects script ∧ ⟨nMasternodePayment, script⟩ ∈ vout := by
  unfold isTransactionValid
  dsimp only
  have hnone : (∀ payee ∈ b.vecPayees, payee.getVoteCount < mnPaymentsSignaturesRequired) ↔ ∀ script, ¬ b.Elects script := by
    constructor
    · rintro h script ⟨payee, hin, hvotes, -⟩
      exact absurd (h payee hin) (by omega)
    · intro h payee hin
      by_contra hvotes
      exact h payee.scriptPubKey ⟨payee, hin, by omega, rfl⟩
  split
  · rename_i hfew
    rw [foldl_max_lt_iff] at hfew
    exact iff_of_true rfl (.inl (hnone.1 hfew.2))
  · rename_i hmany
    rw [foldl_max_lt_iff, not_and] at hmany
    have hsome : ¬ ∀ script, ¬ b.Elects script := fun h => hmany (by decide) (hnone.2 h)
    rw [or_iff_right hsome, List.any_eq_true]
    constructor
    · intro hex
      obtain ⟨payee, hin, hpaid⟩ := hex
      rw [Bool.and_eq_true, decide_eq_true_eq, List.any_eq_true] at hpaid
      obtain ⟨hvotes, out, hout, hsame⟩ := hpaid
      rw [Bool.and_eq_true, beq_iff_eq, beq_iff_eq] at hsame
      have heq : out = ⟨nMasternodePayment, payee.scriptPubKey⟩ := CTxOut.ext hsame.2.symm hsame.1.symm
      exact ⟨payee.scriptPubKey, ⟨payee, hin, hvotes, rfl⟩, heq ▸ hout⟩
    · intro hex
      obtain ⟨script, ⟨payee, hin, hvotes, rfl⟩, hout⟩ := hex
      refine ⟨payee, hin, ?_⟩
      rw [Bool.and_eq_true, decide_eq_true_eq, List.any_eq_true]
      exact ⟨hvotes, _, hout, by simp⟩

theorem getBestPayee_eq (b : CMasternodeBlockPayees) :
    b.getBestPayee = if (b.vecPayees.foldl (keepBetter fun payee => some (payee.getVoteCount : Int)) (none, -1)).2 > -1 then
      (b.vecPayees.foldl (keepBetter fun payee => some (payee.getVoteCount : Int)) (none, -1)).1.map (·.scriptPubKey) else none := rfl

theorem elects_getBestPayee (h : b.Elects script) : ∃ payee, b.getBestPayee = some payee ∧ b.Elects payee := by
  obtain ⟨payee, hin, hvotes, -⟩ := h
  have hle : (payee.getVoteCount : Int) ≤
      (b.vecPayees.foldl (keepBetter fun payee => some (payee.getVoteCount : Int)) (none, -1)).2 :=
    foldl_keepBetter_le (none, -1) hin rfl
  rw [getBestPayee_eq]
  rcases foldl_keepBetter_cases (fun payee : CMasternodePayee => some (payee.getVoteCount : Int)) (none, -1) b.vecPayees with
    hstart | ⟨best, hbest, n, hn, heq⟩
  · rw [hstart] at hle
    exact absurd hle (by simp only [not_le]; omega)
  · cases hn
    rw [heq] at hle ⊢
    have hle : (payee.getVoteCount : Int) ≤ best.getVoteCount := hle
    exact ⟨best.scriptPubKey, by rw [if_pos (by show (best.getVoteCount : Int) > -1; omega)]; rfl, best, hbest, by omega, rfl⟩

end CMasternodeBlockPayees

namespace RewardState

open CSuperblockManager

variable {n n' : RewardState} {scriptPubKeyIn script : CScript} {nTime now nBlockHeight : Int} {nFees blockReward : CAmount}
variable {txNew : CTransaction} {vout : List CTxOut} {mapObjects : Objects}

/-! ## The condition -/

def regularPayments (n : RewardState) : List CTxOut :=
  if n.tip > n.cs.nMasternodePaymentsStartBlock then
    (n.mnpayments.getBlockPayee (n.tip + 1)).toList.map (fun payee => ⟨8 * coin / 10, payee⟩) ++
      if n.paysDevFund then [⟨devPayment, n.addressScript devAddress⟩] else []
  else []

def buildsSuperblock (n : RewardState) : Bool := n.superblocksEnabled && (n.isSuperblockTriggered (n.tip + 1)).1

def bestSuperblock (n : RewardState) : Option CSuperblock := getBestSuperblock n.cs n.mapTrigger n.mapObjects (n.tip + 1)

def superblockPayments (n : RewardState) : List CTxOut := n.bestSuperblock.elim [] CSuperblock.outputs

def payeeUnchecked (n : RewardState) (nBlockHeight : Int) : Bool :=
  if nBlockHeight < n.cs.nSuperblockStartBlock ∧ inBudgetWindow n.cs nBlockHeight = true then n.oldSuperblockFlag
  else nBlockHeight ≤ n.cs.nHardForkTwo

def Elects (n : RewardState) (nBlockHeight : Int) (script : CScript) : Prop :=
  ∃ b, n.mnpayments.mapMasternodeBlocks[nBlockHeight]? = some b ∧ b.Elects script

/-- An output that `IsFundRewardValid` looks for. -/
def devOutput (n : RewardState) : CTxOut := ⟨devPayment, n.addressScript n.requiredDevAddress⟩

def regularTotal (n : RewardState) : CAmount :=
  if n.tip > n.cs.nMasternodePaymentsStartBlock then
    (if (n.mnpayments.getBlockPayee (n.tip + 1)).isSome then 8 * coin / 10 else 0) + if n.paysDevFund then devPayment else 0
  else 0

def superblockTotal (n : RewardState) : CAmount := n.bestSuperblock.elim 0 CSuperblock.getPaymentsTotalAmount

def InMoneyRange (nReward nPayments : CAmount) : Prop := 0 ≤ nReward ∧ nReward + nPayments ≤ maxMoney

structure RegularMet (n : RewardState) (scriptPubKeyIn : CScript) (nFees : CAmount) : Prop where
  money : InMoneyRange (getPoWBlockPayment n.cs n.tip nFees) n.regularTotal
  /-- Where the fund is required the miner pays it, behind a masternode, to the address required. -/
  fund : n.requiresDevFund = true → n.tip > n.cs.nMasternodePaymentsStartBlock ∧
    (n.mnpayments.getBlockPayee (n.tip + 1)).isSome ∧ n.paysDevFund = true ∧
    n.addressScript n.requiredDevAddress = n.addressScript devAddress
  /-- Before the masternode payments start the miner pays no payee but itself. -/
  payee : n.isSynced = true → n.tip ≤ n.cs.nMasternodePaymentsStartBlock → (∃ script, n.Elects (n.tip + 1) script) →
    n.payeeUnchecked (n.tip + 1) = true ∨ (n.Elects (n.tip + 1) scriptPubKeyIn ∧
      getPoWBlockPayment n.cs n.tip nFees = 8 * coin / 10)

structure SuperblockMet (n : RewardState) (nFees : CAmount) : Prop where
  money : InMoneyRange (getPoWBlockPayment n.cs n.tip nFees) n.superblockTotal
  fund : n.requiresDevFund = true → ∃ out1 out2, n.superblockPayments[0]? = some out1 ∧ n.superblockPayments[1]? = some out2 ∧
    (out1 = n.devOutput ∨ out2 = n.devOutput)
  limit : if n.isSynced then
      ∃ sb, n.bestSuperblock = some sb ∧ sb.getPaymentsTotalAmount ≤ CSuperblock.getPaymentsLimit n.cs (n.tip + 1)
    else n.superblockTotal ≤ 8 * coin / 10 + devPayment + CSuperblock.getPaymentsLimit n.cs (n.tip + 1)

def ChecksMet (n : RewardState) (scriptPubKeyIn : CScript) (nFees : CAmount) : Prop :=
  if n.buildsSuperblock then n.SuperblockMet nFees else n.RegularMet scriptPubKeyIn nFees

/-! ## The miner -/

theorem getMasternodePayment_eq (cs : ConsensusParams) (tip : Int) (fMasternode : Bool) :
    getMasternodePayment cs tip fMasternode = 8 * coin / 10 := by
  unfold getMasternodePayment
  split <;> rfl

/-- The fees `FillBlockPayments` takes out of the reward put the same reward back. -/
theorem blockReward_kept (cs : ConsensusParams) (tip : Int) (nFees : CAmount) :
    getPoWBlockPayment cs tip (getPoWBlockPayment cs tip nFees - toInt32 (getPoWBlockPayment cs tip (0 * coin))) =
      getPoWBlockPayment cs tip nFees := by
  simp only [getPoWBlockPayment_eq]
  cases phaseOf cs tip with
  | some p => rfl
  | none =>
    have hint : toInt32 (8 * coin / 10 + 0 * coin) = 8 * coin / 10 := by decide
    simp only [Option.map_none, Option.getD_none, hint, add_sub_cancel_left]

theorem findPayee_nil (n : RewardState) : n.findPayee [] = none := by
  unfold findPayee
  rw [List.find?_eq_none]
  intro payee hin
  obtain ⟨id, -, rfl⟩ := List.mem_map.1 hin
  simpa using getScriptForDestination_keyID_ne_nil id

theorem payeeToPay_eq (h : n.tip > n.cs.nMasternodePaymentsStartBlock) :
    n.payeeToPay = n.mnpayments.getBlockPayee (n.tip + 1) := by
  unfold payeeToPay
  rw [if_neg (not_le.2 h), findPayee_nil]
  cases n.mnpayments.getBlockPayee (n.tip + 1) <;> rfl

/-- The outputs of `FillBlockPayee`: the miner's, the masternode's and the development fund's. -/
theorem fillBlockPayee_eq (h : n.tip > n.cs.nMasternodePaymentsStartBlock) (out : CTxOut) (hscript : out.scriptPubKey = script) :
    n.fillBlockPayee [out] nFees = ⟨getPoWBlockPayment n.cs n.tip nFees, script⟩ :: n.regularPayments := by
  simp only [fillBlockPayee, regularPayments, if_pos h, payeeToPay_eq h, getMasternodePayment_eq]
  cases n.mnpayments.getBlockPayee (n.tip + 1) with
  | none => cases n.paysDevFund <;> simp [setValue, resize, hscript]
  | some payee => cases n.paysDevFund <;> simp [setValue, resize, hscript]

def Updated (n n' : RewardState) : Prop :=
  ∃ mapObjects, n' = { n with mapObjects := mapObjects } ∧ SameCount n.sentinel n.mapObjects mapObjects

theorem Updated.refl (n : RewardState) : Updated n n := ⟨n.mapObjects, rfl, .refl _ _⟩

theorem isSuperblockTriggered_updated (h : Updated n n') (nBlockHeight : Int) :
    (n'.isSuperblockTriggered nBlockHeight).1 = (n.isSuperblockTriggered nBlockHeight).1 ∧
      Updated n (n'.isSuperblockTriggered nBlockHeight).2 := by
  obtain ⟨mapObjects, rfl, hsame⟩ := h
  refine ⟨isSuperblockTriggered_congr hsame, _, rfl, hsame.trans ?_⟩
  exact isSuperblockTriggered_sameCount

theorem bestSuperblock_updated (h : Updated n n') : n'.bestSuperblock = n.bestSuperblock := by
  obtain ⟨mapObjects, rfl, hsame⟩ := h
  exact getBestSuperblock_congr hsame

theorem superblockPayments_updated (h : Updated n n') : n'.superblockPayments = n.superblockPayments := by
  rw [superblockPayments, bestSuperblock_updated h, superblockPayments]

theorem buildsSuperblock_updated (h : Updated n n') : n'.buildsSuperblock = n.buildsSuperblock := by
  have htriggered := (isSuperblockTriggered_updated h (n.tip + 1)).1
  obtain ⟨mapObjects, rfl, -⟩ := h
  unfold buildsSuperblock
  rw [htriggered]

theorem fillRegularPayments_vout (h : Updated n n') {nReward : CAmount} (hreward : nReward = getPoWBlockPayment n.cs n.tip nFees)
    (hvout : txNew.vout = [⟨nReward, scriptPubKeyIn⟩]) :
    (n'.fillRegularPayments txNew nReward).vout = ⟨nReward, scriptPubKeyIn⟩ :: n.regularPayments := by
  obtain ⟨mapObjects, rfl, -⟩ := h
  subst hreward
  unfold fillRegularPayments
  split
  · rename_i hstarted
    simp only [hvout, fillBlockPayee_eq hstarted _ rfl, blockReward_kept]
    rfl
  · rename_i hstarted
    rw [hvout, regularPayments, if_neg hstarted]

theorem createSuperblock_payments (h : Updated n n') :
    (createSuperblock n'.cs n'.mapTrigger n'.mapObjects txNew (n.tip + 1) []).1.vout = txNew.vout ++ n.superblockPayments := by
  have hbest := bestSuperblock_updated h
  obtain ⟨mapObjects, rfl, -⟩ := h
  unfold superblockPayments
  rw [← hbest]
  unfold createSuperblock bestSuperblock
  split
  · rename_i hnone
    rw [hnone]
    exact (List.append_nil _).symm
  · rename_i sb hsb
    rw [hsb]
    rfl

theorem createCoinbase_spec (n : RewardState) (scriptPubKeyIn : CScript) (nFees : CAmount) :
    (n.createCoinbase scriptPubKeyIn nFees).1.vout = ⟨getPoWBlockPayment n.cs n.tip nFees, scriptPubKeyIn⟩ ::
      (if n.buildsSuperblock then n.superblockPayments else n.regularPayments) ∧
    Updated n (n.createCoinbase scriptPubKeyIn nFees).2 := by
  obtain ⟨-, hupdated⟩ := isSuperblockTriggered_updated (.refl n) (n.tip + 1)
  unfold createCoinbase fillBlockPayments buildsSuperblock
  generalize n.isSuperblockTriggered (n.tip + 1) = r at hupdated
  obtain ⟨fTriggered, n'⟩ := r
  cases n.superblocksEnabled with
  | false => exact ⟨fillRegularPayments_vout (.refl n) rfl rfl, .refl n⟩
  | true =>
    cases fTriggered with
    | false => exact ⟨fillRegularPayments_vout hupdated rfl rfl, hupdated⟩
    | true => exact ⟨createSuperblock_payments hupdated, hupdated⟩

/-! ## The checks -/

/-- `nExpectedBlockValue` of `ConnectBlock`. -/
def expectedBlockValue (n : RewardState) (nFees : CAmount) : CAmount :=
  8 * coin / 10 + getPoWBlockPayment n.cs n.tip nFees + devPayment

theorem connectRewards_iff : n.connectRewards txNew nTime now nFees = some true ↔
    (n.requiresDevFund = true → n.isFundRewardValid txNew.vout devPayment = some true) ∧
    (n.isBlockValueValid txNew nTime now (n.tip + 1) (n.expectedBlockValue nFees)).1 = some true ∧
    ((n.isBlockValueValid txNew nTime now (n.tip + 1) (n.expectedBlockValue nFees)).2.isBlockPayeeValid txNew (n.tip + 1)
      (n.expectedBlockValue nFees)).1 = some true := by
  have hfund : (if n.requiresDevFund = true then n.isFundRewardValid txNew.vout devPayment else some true) = some true ↔
      (n.requiresDevFund = true → n.isFundRewardValid txNew.vout devPayment = some true) := by
    split
    · rename_i h
      exact ⟨fun hfund _ => hfund, fun hfund => hfund h⟩
    · rename_i h
      exact ⟨fun _ hrequired => absurd hrequired h, fun _ => rfl⟩
  simp only [connectRewards, getMasternodePayment_eq, ← expectedBlockValue.eq_def]
  rw [← hfund]
  generalize (if n.requiresDevFund = true then n.isFundRewardValid txNew.vout devPayment else some true) = fund
  generalize n.isBlockValueValid txNew nTime now (n.tip + 1) (n.expectedBlockValue nFees) = value
  obtain ⟨answer, n'⟩ := value
  rcases fund with _ | _ | _ <;> rcases answer with _ | _ | _ <;> simp

theorem isFundRewardValid_iff : n.isFundRewardValid vout devPayment = some true ↔
    ∃ out1 out2, vout[1]? = some out1 ∧ vout[2]? = some out2 ∧ (out1 = n.devOutput ∨ out2 = n.devOutput) := by
  have hout (out : CTxOut) : (out.scriptPubKey == n.addressScript n.requiredDevAddress && out.nValue == devPayment) = true ↔
      out = n.devOutput := by
    rw [Bool.and_eq_true, beq_iff_eq, beq_iff_eq]
    constructor
    · intro hboth
      obtain ⟨hscript, hvalue⟩ := hboth
      exact CTxOut.ext hvalue hscript
    · rintro rfl
      exact ⟨rfl, rfl⟩
  unfold isFundRewardValid
  cases vout[1]? with
  | none => simp
  | some out1 =>
    cases vout[2]? with
    | none => simp
    | some out2 =>
      simp only [Option.some.injEq, Bool.or_eq_true, hout]
      constructor
      · intro h
        exact ⟨out1, out2, rfl, rfl, h.symm⟩
      · intro hboth
        obtain ⟨_, _, rfl, rfl, h⟩ := hboth
        exact h.symm

theorem isBlockValueValid_updated (n : RewardState) (txNew : CTransaction) (nTime now nBlockHeight : Int)
    (blockReward : CAmount) :
    Updated n (n.isBlockValueValid txNew nTime now nBlockHeight blockReward).2 := by
  have htriggered := (isSuperblockTriggered_updated (.refl n) nBlockHeight).2
  unfold isBlockValueValid
  dsimp only
  repeat' split
  all_goals first | exact .refl n | exact htriggered

/-- Without a superblock the value is checked against the reward, where it is checked. -/
theorem isBlockValueValid_regular (hno : (n.superblocksEnabled && (n.isSuperblockTriggered nBlockHeight).1) = false)
    (hle : ∀ v, getValueOut txNew.vout = some v → v ≤ blockReward) :
    (n.isBlockValueValid txNew nTime now nBlockHeight blockReward).1 = some true ↔ (getValueOut txNew.vout).isSome := by
  unfold isBlockValueValid
  cases hvalue : getValueOut txNew.vout with
  | none => simp
  | some v =>
    have hmet : (decide (v ≤ blockReward)) = true := decide_eq_true (hle v hvalue)
    simp only [hmet, CSuperblock.getPaymentsLimit_eq, add_zero, Option.isSome_some, iff_true]
    split
    · split
      · split <;> rfl
      · rfl
    split
    · split <;> rfl
    split
    · rename_i henabled
      rw [henabled, Bool.true_and] at hno
      simp only [hno, Bool.false_eq_true, if_false]
      split <;> rfl
    · rfl

theorem isBlockPayeeValid_regular (hno : (n.superblocksEnabled && (n.isSuperblockTriggered nBlockHeight).1) = false) :
    (n.isBlockPayeeValid txNew nBlockHeight blockReward).1 = some true ↔
      (n.isSynced = true → n.isMasternodePaid txNew.vout nBlockHeight = true ∨ n.payeeUnchecked nBlockHeight = true) := by
  have hasked : ∃ n', (if n.superblocksEnabled = true then n.isSuperblockTriggered nBlockHeight else (false, n)) = (false, n') ∧
      Updated n n' := by
    split
    · rename_i henabled
      rw [henabled, Bool.true_and] at hno
      exact ⟨_, Prod.ext hno rfl, (isSuperblockTriggered_updated (.refl n) nBlockHeight).2⟩
    · exact ⟨n, rfl, .refl n⟩
  obtain ⟨n', hasked, mapObjects, rfl, -⟩ := hasked
  have hpaid : ({ n with mapObjects := mapObjects } : RewardState).isMasternodePaid txNew.vout nBlockHeight =
      n.isMasternodePaid txNew.vout nBlockHeight := rfl
  unfold isBlockPayeeValid payeeUnchecked
  simp only [hasked, hpaid, Bool.false_eq_true, if_false]
  cases n.isSynced with
  | false => simp
  | true =>
    by_cases hstart : nBlockHeight < n.cs.nSuperblockStartBlock
    · cases n.isMasternodePaid txNew.vout nBlockHeight <;> cases inBudgetWindow n.cs nBlockHeight <;> simp [hstart]
    · cases n.isMasternodePaid txNew.vout nBlockHeight <;> simp [hstart]

/-! ### A regular coinbase -/

theorem isMasternodePaid_iff : n.isMasternodePaid vout nBlockHeight = true ↔ (∀ script, ¬ n.Elects nBlockHeight script) ∨
    ∃ script, n.Elects nBlockHeight script ∧ ⟨8 * coin / 10, script⟩ ∈ vout := by
  unfold isMasternodePaid CMasternodePayments.isTransactionValid Elects
  cases n.mnpayments.mapMasternodeBlocks[nBlockHeight]? with
  | none => simp
  | some b => simpa [getMasternodePayment_eq] using CMasternodeBlockPayees.isTransactionValid_iff

/-- Once the masternode payments have started, the payee that the votes elect is paid. -/
theorem paid_of_started (hstarted : n.tip > n.cs.nMasternodePaymentsStartBlock) (out : CTxOut) :
    n.isMasternodePaid (out :: n.regularPayments) (n.tip + 1) = true := by
  rw [isMasternodePaid_iff]
  by_cases helects : ∃ script, n.Elects (n.tip + 1) script
  · obtain ⟨script, b, hb, helected⟩ := helects
    obtain ⟨payee, hbest, hpayee⟩ := CMasternodeBlockPayees.elects_getBestPayee helected
    have hblock : n.mnpayments.getBlockPayee (n.tip + 1) = some payee := by
      simp only [CMasternodePayments.getBlockPayee, hb, Option.bind_some, hbest]
    refine .inr ⟨payee, ⟨b, hb, hpayee⟩, ?_⟩
    simp [regularPayments, hstarted, hblock]
  · exact .inl (not_exists.1 helects)

theorem paid_before_start (hstart : n.tip ≤ n.cs.nMasternodePaymentsStartBlock) (nReward : CAmount) :
    n.isMasternodePaid (⟨nReward, scriptPubKeyIn⟩ :: n.regularPayments) (n.tip + 1) = true ↔
      ((∃ script, n.Elects (n.tip + 1) script) → n.Elects (n.tip + 1) scriptPubKeyIn ∧ nReward = 8 * coin / 10) := by
  rw [isMasternodePaid_iff, regularPayments, if_neg (not_lt.2 hstart)]
  simp only [List.mem_singleton, CTxOut.mk.injEq]
  constructor
  · rintro (hnone | ⟨script, helected, hreward, rfl⟩) helects
    · exact absurd helects (not_exists.2 hnone)
    · exact ⟨helected, hreward.symm⟩
  · intro h
    by_cases helects : ∃ script, n.Elects (n.tip + 1) script
    · obtain ⟨helected, hreward⟩ := h helects
      exact .inr ⟨scriptPubKeyIn, helected, hreward.symm, rfl⟩
    · exact .inl (not_exists.1 helects)

/-- The development fund's output is the third of a coinbase that pays a masternode, and no
    other output has its amount. -/
theorem fund_regular_iff (nReward : CAmount) :
    n.isFundRewardValid (⟨nReward, scriptPubKeyIn⟩ :: n.regularPayments) devPayment = some true ↔
      n.tip > n.cs.nMasternodePaymentsStartBlock ∧ (n.mnpayments.getBlockPayee (n.tip + 1)).isSome ∧ n.paysDevFund = true ∧
      n.addressScript n.requiredDevAddress = n.addressScript devAddress := by
  have hamount : ¬ (8 * coin / 10 : CAmount) = devPayment := by decide
  rw [isFundRewardValid_iff]
  unfold regularPayments devOutput
  by_cases hstarted : n.tip > n.cs.nMasternodePaymentsStartBlock
  · rw [if_pos hstarted]
    cases n.mnpayments.getBlockPayee (n.tip + 1) with
    | none => cases n.paysDevFund <;> simp
    | some payee => cases n.paysDevFund <;> simp [hstarted, hamount, eq_comm]
  · rw [if_neg hstarted]
    simp [hstarted]

theorem sum_regularPayments (n : RewardState) : (n.regularPayments.map (·.nValue)).sum = n.regularTotal := by
  unfold regularPayments regularTotal
  split
  · cases n.mnpayments.getBlockPayee (n.tip + 1) <;> cases n.paysDevFund <;> simp
  · rfl

theorem regularPayments_value (n : RewardState) : (∀ out ∈ n.regularPayments, 0 ≤ out.nValue) ∧
    n.regularTotal ≤ 8 * coin / 10 + devPayment := by
  rw [← sum_regularPayments]
  unfold regularPayments
  split
  · cases n.mnpayments.getBlockPayee (n.tip + 1) <;> cases n.paysDevFund <;> simp [devPayment, coin]
  · simp [devPayment, coin]

theorem value_isSome_iff {nReward : CAmount} {payments : List CTxOut} (hpayments : ∀ out ∈ payments, 0 ≤ out.nValue) :
    (getValueOut (⟨nReward, script⟩ :: payments)).isSome ↔ InMoneyRange nReward (payments.map (·.nValue)).sum := by
  rw [Option.isSome_iff_exists]
  simp only [getValueOut_eq_some_iff, List.forall_mem_cons, List.map_cons, List.sum_cons, InMoneyRange]
  constructor
  · intro h
    rcases h with ⟨v, ⟨hreward, -⟩, rfl, hmax⟩
    exact ⟨hreward, hmax⟩
  · intro h
    rcases h with ⟨hreward, hmax⟩
    exact ⟨_, ⟨hreward, hpayments⟩, rfl, hmax⟩

theorem value_eq {nReward v : CAmount} {payments : List CTxOut} (h : getValueOut (⟨nReward, script⟩ :: payments) = some v) :
    v = nReward + (payments.map (·.nValue)).sum := by
  obtain ⟨-, hsum, -⟩ := getValueOut_eq_some_iff.1 h
  rw [← hsum, List.map_cons, List.sum_cons]

theorem regular_accepted_iff (hno : n.buildsSuperblock = false)
    (hvout : txNew.vout = ⟨getPoWBlockPayment n.cs n.tip nFees, scriptPubKeyIn⟩ :: n.regularPayments) :
    n.connectRewards txNew nTime now nFees = some true ↔ n.RegularMet scriptPubKeyIn nFees := by
  have hvalid (v : CAmount) (hv : getValueOut txNew.vout = some v) : v ≤ n.expectedBlockValue nFees := by
    rw [hvout] at hv
    calc v = getPoWBlockPayment n.cs n.tip nFees + (n.regularPayments.map (·.nValue)).sum := value_eq hv
      _ = getPoWBlockPayment n.cs n.tip nFees + n.regularTotal := by rw [sum_regularPayments]
      _ ≤ getPoWBlockPayment n.cs n.tip nFees + (8 * coin / 10 + devPayment) := add_le_add_right (regularPayments_value n).2 _
      _ = n.expectedBlockValue nFees := by rw [expectedBlockValue, add_left_comm, ← add_assoc]
  have hupdated := isBlockValueValid_updated n txNew nTime now (n.tip + 1) (n.expectedBlockValue nFees)
  rw [connectRewards_iff, isBlockValueValid_regular hno hvalid]
  generalize (n.isBlockValueValid txNew nTime now (n.tip + 1) (n.expectedBlockValue nFees)).2 = n' at hupdated ⊢
  have hno' : (n'.superblocksEnabled && (n'.isSuperblockTriggered (n.tip + 1)).1) = false := by
    rw [(isSuperblockTriggered_updated hupdated (n.tip + 1)).1]
    obtain ⟨mapObjects, rfl, -⟩ := hupdated
    exact hno
  rw [isBlockPayeeValid_regular hno']
  obtain ⟨mapObjects, rfl, -⟩ := hupdated
  have hpaid : ({ n with mapObjects := mapObjects } : RewardState).isMasternodePaid txNew.vout (n.tip + 1) =
      n.isMasternodePaid (⟨getPoWBlockPayment n.cs n.tip nFees, scriptPubKeyIn⟩ :: n.regularPayments) (n.tip + 1) := by
    rw [hvout]
    rfl
  have hunchecked : ({ n with mapObjects := mapObjects } : RewardState).payeeUnchecked (n.tip + 1) =
    n.payeeUnchecked (n.tip + 1) := rfl
  rw [hpaid, hunchecked, hvout, value_isSome_iff (regularPayments_value n).1, sum_regularPayments,
    fund_regular_iff]
  constructor
  · intro hboth
    obtain ⟨hfund, hmoney, hpayee⟩ := hboth
    refine ⟨hmoney, hfund, fun hsynced hstart helects => ?_⟩
    rcases hpayee hsynced with hpaid | hfree
    · exact .inr ((paid_before_start hstart _).1 hpaid helects)
    · exact .inl hfree
  · intro hboth
    obtain ⟨hmoney, hfund, hpayee⟩ := hboth
    refine ⟨hfund, hmoney, fun hsynced => ?_⟩
    by_cases hstarted : n.tip > n.cs.nMasternodePaymentsStartBlock
    · exact .inl (paid_of_started hstarted _)
    · have hstart : n.tip ≤ n.cs.nMasternodePaymentsStartBlock := not_lt.1 hstarted
      rw [paid_before_start hstart]
      by_cases helects : ∃ script, n.Elects (n.tip + 1) script
      · rcases hpayee hsynced hstart helects with hfree | hown
        · exact .inr hfree
        · exact .inl fun _ => hown
      · exact .inl fun h => absurd h helects

/-! ### A superblock -/

/-- `CSuperblockManager::IsValid` for the block after the tip. -/
def superblockValid (n : RewardState) (txNew : CTransaction) (blockReward : CAmount) : Option Bool :=
  CSuperblockManager.isValid n.cs n.mapTrigger n.mapObjects txNew (n.tip + 1) blockReward

theorem superblockValid_updated (h : Updated n n') :
    n'.superblockValid txNew blockReward = n.superblockValid txNew blockReward := by
  have hbest := bestSuperblock_updated h
  obtain ⟨mapObjects, rfl, -⟩ := h
  unfold bestSuperblock at hbest
  simp only [superblockValid, CSuperblockManager.isValid, hbest]

theorem triggered_of_builds (h : n.buildsSuperblock = true) : n.superblocksEnabled = true ∧
    (n.isSuperblockTriggered (n.tip + 1)).1 = true ∧ CSuperblock.isValidBlockHeight n.cs (n.tip + 1) = true ∧
    n.cs.nSuperblockStartBlock ≤ n.tip + 1 := by
  obtain ⟨henabled, htriggered⟩ := Bool.and_eq_true_iff.1 h
  have hheight := (isSuperblockTriggered_iff.1 htriggered).1
  exact ⟨henabled, htriggered, hheight, by simpa using (Bool.and_eq_true_iff.1 hheight).1⟩

theorem isBlockValueValid_superblock (h : n.buildsSuperblock = true) :
    (n.isBlockValueValid txNew nTime now (n.tip + 1) blockReward).1 = some true ↔ ∃ v, getValueOut txNew.vout = some v ∧
      if n.isSynced then nTime + 60 * 60 < now ∨ n.superblockValid txNew blockReward = some true
      else v ≤ blockReward + CSuperblock.getPaymentsLimit n.cs (n.tip + 1) := by
  obtain ⟨henabled, htriggered, hheight, hstart⟩ := triggered_of_builds h
  have hvalid : (n.isSuperblockTriggered (n.tip + 1)).2.superblockValid txNew blockReward = n.superblockValid txNew blockReward :=
    superblockValid_updated (isSuperblockTriggered_updated (.refl n) (n.tip + 1)).2
  unfold isBlockValueValid
  cases getValueOut txNew.vout with
  | none => simp
  | some v =>
    simp only [if_neg (not_lt.2 hstart), henabled, htriggered, hheight, if_true, Option.some.injEq, exists_eq_left']
    cases n.isSynced with
    | false => simp
    | true =>
      simp only [Bool.not_true, Bool.false_eq_true, if_false, if_true]
      split
      · rename_i hold
        exact iff_of_true rfl (.inl hold)
      · rename_i hnew
        rw [or_iff_right hnew, ← hvalid]
        rfl

theorem isBlockPayeeValid_superblock (h : n.buildsSuperblock = true) :
    (n.isBlockPayeeValid txNew (n.tip + 1) blockReward).1 = some true ↔
      (n.isSynced = true → n.superblockValid txNew blockReward = some true) := by
  obtain ⟨henabled, htriggered, -, hstart⟩ := triggered_of_builds h
  have hvalid : (n.isSuperblockTriggered (n.tip + 1)).2.superblockValid txNew blockReward = n.superblockValid txNew blockReward :=
    superblockValid_updated (isSuperblockTriggered_updated (.refl n) (n.tip + 1)).2
  unfold isBlockPayeeValid
  simp only [if_neg (not_lt.2 hstart), henabled, htriggered, if_true]
  cases n.isSynced with
  | false => simp
  | true =>
    simp only [Bool.not_true, Bool.false_eq_true, if_false, true_imp_iff]
    rw [← hvalid]
    rfl

theorem isBlockPayeeValid_updated (hupdated : Updated n n') (h : n.buildsSuperblock = true) (blockReward : CAmount) :
    (n'.isBlockPayeeValid txNew (n.tip + 1) blockReward).1 = some true ↔
      (n.isSynced = true → n.superblockValid txNew blockReward = some true) := by
  have hbuilds : n'.buildsSuperblock = true := (buildsSuperblock_updated hupdated).trans h
  rw [← superblockValid_updated hupdated]
  obtain ⟨mapObjects, rfl, -⟩ := hupdated
  exact isBlockPayeeValid_superblock hbuilds

theorem superblockValid_iff {nReward : CAmount} (hvout : txNew.vout = ⟨nReward, script⟩ :: n.superblockPayments)
    (hreward : moneyRange nReward = true) (hle : nReward ≤ blockReward) : n.superblockValid txNew blockReward = some true ↔
      ∃ sb, n.bestSuperblock = some sb ∧ sb.getPaymentsTotalAmount ≤ CSuperblock.getPaymentsLimit n.cs (n.tip + 1) := by
  have hbase : getValueOut [⟨nReward, script⟩] = some nReward := by
    rw [getValueOut_eq_some_iff]
    simpa using moneyRange_iff.1 hreward
  unfold superblockValid CSuperblockManager.isValid
  cases hbest : n.bestSuperblock with
  | none =>
    have hnone : getBestSuperblock n.cs n.mapTrigger n.mapObjects (n.tip + 1) = none := hbest
    simp [hnone]
  | some sb =>
    have hsome : getBestSuperblock n.cs n.mapTrigger n.mapObjects (n.tip + 1) = some sb := hbest
    have happended : txNew.vout = [⟨nReward, script⟩] ++ sb.outputs := by
      rw [hvout, superblockPayments, hbest]
      rfl
    rw [hsome]
    simp only [isValid_appended_iff happended (isValidBlockHeight_of_best hsome) hbase hle, Option.some.injEq, exists_eq_left']

theorem superblockPayments_nonneg (n : RewardState) : ∀ out ∈ n.superblockPayments, 0 ≤ out.nValue := by
  intro out hout
  unfold superblockPayments at hout
  cases hbest : n.bestSuperblock with
  | none =>
    rw [hbest] at hout
    cases hout
  | some sb =>
    rw [hbest] at hout
    obtain ⟨p, hp, rfl⟩ := List.mem_map.1 hout
    exact CSuperblock.nAmount_nonneg hp

theorem sum_superblockPayments (n : RewardState) : (n.superblockPayments.map (·.nValue)).sum = n.superblockTotal := by
  unfold superblockPayments superblockTotal
  cases n.bestSuperblock with
  | none => rfl
  | some sb => exact congrArg List.sum (List.map_map ..)

theorem moneyRange_superblock {nReward : CAmount} (h : InMoneyRange nReward n.superblockTotal) : moneyRange nReward = true := by
  have htotal : 0 ≤ n.superblockTotal := by
    unfold superblockTotal
    cases n.bestSuperblock with
    | none => exact le_rfl
    | some sb => exact sb.getPaymentsTotalAmount_nonneg
  exact moneyRange_iff.2 ⟨h.1, (le_add_of_nonneg_right htotal).trans h.2⟩

theorem reward_le_expected (n : RewardState) (nFees : CAmount) :
    getPoWBlockPayment n.cs n.tip nFees ≤ n.expectedBlockValue nFees := by
  unfold expectedBlockValue
  rw [add_right_comm]
  exact le_add_of_nonneg_left (by decide)

/-- The miner's output is within the reward; the payments have the masternode's and the fund's
    amounts to spend besides the limit. -/
theorem value_le_superblock_iff {v nLimit : CAmount}
    (hvalue : getValueOut (⟨getPoWBlockPayment n.cs n.tip nFees, script⟩ :: n.superblockPayments) = some v) :
    v ≤ n.expectedBlockValue nFees + nLimit ↔
      n.superblockTotal ≤ 8 * coin / 10 + devPayment + nLimit := by
  have hexpected : n.expectedBlockValue nFees + nLimit =
    getPoWBlockPayment n.cs n.tip nFees + (8 * coin / 10 + devPayment + nLimit) := by
    simp only [expectedBlockValue, add_assoc, add_left_comm]
  rw [value_eq hvalue, sum_superblockPayments, hexpected, add_le_add_iff_left]

theorem fund_superblock_iff (out : CTxOut) : n.isFundRewardValid (out :: n.superblockPayments) devPayment = some true ↔
    ∃ out1 out2, n.superblockPayments[0]? = some out1 ∧ n.superblockPayments[1]? = some out2 ∧
      (out1 = n.devOutput ∨ out2 = n.devOutput) := by
  rw [isFundRewardValid_iff, List.getElem?_cons_succ, List.getElem?_cons_succ]

theorem superblock_accepted_iff (h : n.buildsSuperblock = true)
    (hvout : txNew.vout = ⟨getPoWBlockPayment n.cs n.tip nFees, scriptPubKeyIn⟩ :: n.superblockPayments) :
    n.connectRewards txNew nTime now nFees = some true ↔ n.SuperblockMet nFees := by
  have hupdated := isBlockValueValid_updated n txNew nTime now (n.tip + 1) (n.expectedBlockValue nFees)
  have hmoney : (getValueOut txNew.vout).isSome ↔ InMoneyRange (getPoWBlockPayment n.cs n.tip nFees) n.superblockTotal := by
    rw [hvout, value_isSome_iff n.superblockPayments_nonneg, sum_superblockPayments]
  rw [connectRewards_iff, isBlockPayeeValid_updated hupdated h, isBlockValueValid_superblock h, hvout, fund_superblock_iff]
  rw [hvout] at hmoney
  constructor
  · intro hboth
    obtain ⟨hfund, ⟨v, hvalue, hlimit⟩, hvalid⟩ := hboth
    have hrange := hmoney.1 (Option.isSome_iff_exists.2 ⟨v, hvalue⟩)
    refine ⟨hrange, hfund, ?_⟩
    split
    · rename_i hsynced
      exact (superblockValid_iff hvout (moneyRange_superblock hrange) (n.reward_le_expected nFees)).1 (hvalid hsynced)
    · rename_i hsynced
      rw [if_neg hsynced] at hlimit
      exact (value_le_superblock_iff hvalue).1 hlimit
  · intro hboth
    obtain ⟨hrange, hfund, hlimit⟩ := hboth
    obtain ⟨v, hvalue⟩ := Option.isSome_iff_exists.1 (hmoney.2 hrange)
    by_cases hsynced : n.isSynced = true
    · rw [if_pos hsynced] at hlimit
      have hvalid := (superblockValid_iff hvout (moneyRange_superblock hrange) (n.reward_le_expected nFees)).2 hlimit
      exact ⟨hfund, ⟨v, hvalue, by rw [if_pos hsynced]; exact .inr hvalid⟩, fun _ => hvalid⟩
    · rw [if_neg hsynced] at hlimit
      have hvalue_le := (value_le_superblock_iff hvalue).2 hlimit
      exact ⟨hfund, ⟨v, hvalue, by rw [if_neg hsynced]; exact hvalue_le⟩, fun h => absurd h hsynced⟩

/-! ## The miner's coinbase -/

theorem checksMet_updated (h : Updated n n') : n'.ChecksMet scriptPubKeyIn nFees ↔ n.ChecksMet scriptPubKeyIn nFees := by
  have hbuilds := buildsSuperblock_updated h
  have hbest := bestSuperblock_updated h
  have hpayments := superblockPayments_updated h
  have htotal : n'.superblockTotal = n.superblockTotal := by rw [superblockTotal, hbest, superblockTotal]
  obtain ⟨mapObjects, rfl, -⟩ := h
  unfold ChecksMet
  rw [hbuilds]
  split
  · constructor
    · intro hboth
      obtain ⟨hmoney, hfund, hlimit⟩ := hboth
      rw [htotal] at hmoney hlimit
      rw [hpayments] at hfund
      rw [hbest] at hlimit
      exact ⟨hmoney, hfund, hlimit⟩
    · intro hboth
      obtain ⟨hmoney, hfund, hlimit⟩ := hboth
      rw [← htotal] at hmoney hlimit
      rw [← hpayments] at hfund
      rw [← hbest] at hlimit
      exact ⟨hmoney, hfund, hlimit⟩
  · constructor
    · intro hboth
      obtain ⟨hmoney, hfund, hpayee⟩ := hboth
      exact ⟨hmoney, hfund, hpayee⟩
    · intro hboth
      obtain ⟨hmoney, hfund, hpayee⟩ := hboth
      exact ⟨hmoney, hfund, hpayee⟩

theorem connectRewards_minted (hvout : txNew.vout = ⟨getPoWBlockPayment n.cs n.tip nFees, scriptPubKeyIn⟩ ::
    (if n.buildsSuperblock then n.superblockPayments else n.regularPayments)) :
    n.connectRewards txNew nTime now nFees = some true ↔ n.ChecksMet scriptPubKeyIn nFees := by
  unfold ChecksMet
  split
  · rename_i h
    rw [if_pos h] at hvout
    exact superblock_accepted_iff h hvout
  · rename_i h
    rw [if_neg h] at hvout
    exact regular_accepted_iff (Bool.not_eq_true _ ▸ h) hvout

/-- The checks take the miner's coinbase exactly where the condition holds. -/
theorem coinbase_accepted_iff (n : RewardState) (scriptPubKeyIn : CScript) (nTime now : Int) (nFees : CAmount) :
    n.CoinbaseAccepted scriptPubKeyIn nTime now nFees ↔ n.ChecksMet scriptPubKeyIn nFees := by
  obtain ⟨hvout, hupdated⟩ := createCoinbase_spec n scriptPubKeyIn nFees
  unfold CoinbaseAccepted
  generalize n.createCoinbase scriptPubKeyIn nFees = r at hvout hupdated
  obtain ⟨txNew, n'⟩ := r
  rw [← checksMet_updated hupdated]
  apply connectRewards_minted
  have hbuilds := buildsSuperblock_updated hupdated
  rw [hbuilds, superblockPayments_updated hupdated]
  obtain ⟨mapObjects, rfl, -⟩ := hupdated
  exact hvout

/-! ## The networks -/

def decodeDevAddress (s : String) : Option (List UInt8) :=
  if s = devAddress then
    some [0x50, 0xb2, 0xf7, 0x38, 0x8d, 0xbc, 0x38, 0xdc, 0x9e, 0xa4, 0xbf, 0x82, 0x97, 0xf1, 0x28, 0x2e, 0x9a, 0xcd,
      0x0c, 0xac, 0xf5]
  else if s = oldDevAddress then
    some [0x0a, 0x0a, 0xdc, 0x65, 0xd5, 0x86, 0xb1, 0xd0, 0x55, 0xb2, 0xf9, 0x83, 0x6b, 0x23, 0xaf, 0x69, 0xbb, 0xcc,
      0xe1, 0xd0, 0xb0]
  else none

/-- The test network at height 30000, whose next block pays the masternode of script 5. -/
def testNet30000 : RewardState where
  cs := testNetParams
  base58Prefixes := Network.test.base58Prefixes
  decodeBase58Check := decodeDevAddress
  tip := 30000
  isSynced := true
  superblocksEnabled := false
  oldSuperblockFlag := false
  mnpayments := { init with mapMasternodeBlocks := {(30001, ⟨30001, [⟨[5], [1]⟩]⟩)} }
  collateralIDs := []
  mapTrigger := ∅
  mapObjects := ∅
  sentinel := ⟨1, 1, 100000⟩

/-- The miner pays the fund at height 30001 to the new address, which the test network does not
    know; the old one is asked for. -/
theorem old_address_refused : ¬ testNet30000.CoinbaseAccepted [1] 100000 100000 0 := by
  unfold CoinbaseAccepted
  decide

end RewardState

end Zumy.Payments
