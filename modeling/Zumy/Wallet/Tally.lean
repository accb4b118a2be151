/-
  Zumy.Wallet.Tally — the tally of anonymizable outputs by address, and its two caches
  (`wallet/wallet.cpp`: `SelectCoinsGrouppedByAddresses`, `LockCoin`, `UnlockCoin`,
  `UnlockAllCoins`, `SyncTransaction`, `AddToWalletIfInvolvingMe`, `AddToWallet`).

  The keys, the addresses and the settings stay the same (`Config`). A block that is
  connected or disconnected is one event: the new view of the chain and the transactions the
  wallet hears of, since `cs_main` is held all the while. Whether a write of the wallet file
  succeeds belongs to the event. `fAnonymizable` is true: without it the caches are neither
  read nor written. A step is undefined (`none`) where an assertion fails, `GetDebit` throws
  or the table of rounds is read past an end.

  - `CWallet.sync_spec`, `block_spec`: a transaction that concerns the wallet resets both
    flags, and another one changes nothing.
-/
import Zumy.Wallet.Rounds

namespace Zumy.Ledger

open Zumy.Lib
open Zumy.PrivateSend (vecPrivateSendDenominations)

def coinbaseMaturity : Int := 10

structure CompactTallyItem where
  address : Nat
  nAmount : CAmount
  vecTxIn : List COutPoint
  deriving DecidableEq

/-- Addresses are numbers, in the order of `CZumyAddress`. -/
structure Config where
  extractDestination : CScript → Option Nat
  /-- `IsMine` of an address has `ISMINE_SPENDABLE`. -/
  isSpendable : Nat → Bool
  /-- `IsMine` of an output is not `ISMINE_NO`. -/
  isMine : CTxOut → Bool
  fMasterNode : Bool
  nPrivateSendRounds : Int
  /-- `sort` with `CompareByAmount`, from the back. -/
  sortByAmount : List CompactTallyItem → List CompactTallyItem

structure MixingWallet extends CWallet where
  view : View
  setLockedCoins : Finset COutPoint
  mDenomWtxes : DenomTable
  vecAnonymizableTallyCached : List CompactTallyItem
  vecAnonymizableTallyCachedNonDenom : List CompactTallyItem

def smallestDenomination : CAmount := vecPrivateSendDenominations.getLastD 0

def CWalletTx.getBlocksToMaturity (v : View) (wtx : CWalletTx) : Int :=
  if !wtx.isCoinBase then 0 else max 0 (coinbaseMaturity + 1 - wtx.getDepthInMainChain v true)

/-! ## The tally -/

namespace MixingWallet

section
variable (cfg : Config) (s : MixingWallet) (fSkipDenominated : Bool)

def countedOutput (wtx : CWalletTx) (i : Nat) (out : CTxOut) : Option Nat :=
  (cfg.extractDestination out.scriptPubKey).bind fun address =>
  if !cfg.isSpendable address then none
  else if s.isSpent s.view wtx.hash i || decide (⟨wtx.hash, i⟩ ∈ s.setLockedCoins) then none
  else if fSkipDenominated && isDenominatedAmount out.nValue then none
  -- ignore collaterals
  else if isCollateralAmount out.nValue then none
  else if cfg.fMasterNode && out.nValue == 500 * coin then none
  -- ignore outputs that are 10 times smaller then the smallest denomination
  else if out.nValue ≤ smallestDenomination / 10 then none
  else some address

def getInputPrivateSendRounds (m : DenomTable) (prevout : COutPoint) : Option (Int × DenomTable) :=
  (getRealInputPrivateSendRounds s.mapWallet cfg.isMine 16 m prevout).map fun (realPrivateSendRounds, m) =>
    (if realPrivateSendRounds > cfg.nPrivateSendRounds then cfg.nPrivateSendRounds else realPrivateSendRounds, m)

/-- `mapTally[address]` with an output more. -/
def addToTally (mapTally : Map Nat CompactTallyItem) (address : Nat) (nValue : CAmount) (prevout : COutPoint) :
    Map Nat CompactTallyItem :=
  let item := (mapTally[address]?).getD ⟨address, 0, []⟩
  mapTally.insert address ⟨address, item.nAmount + nValue, item.vecTxIn ++ [prevout]⟩

def tallyOutput (wtx : CWalletTx) (acc : Map Nat CompactTallyItem × DenomTable) (e : CTxOut × Nat) :
    Option (Map Nat CompactTallyItem × DenomTable) :=
  match s.countedOutput cfg fSkipDenominated wtx e.2 e.1 with
  | none => some acc
  | some address =>
    (s.getInputPrivateSendRounds cfg acc.2 ⟨wtx.hash, e.2⟩).map fun (nRounds, m) =>
    -- ignore anonymized
    if nRounds ≥ cfg.nPrivateSendRounds then (acc.1, m)
    else (addToTally acc.1 address e.1.nValue ⟨wtx.hash, e.2⟩, m)

def immature (wtx : CWalletTx) : Bool := wtx.isCoinBase && decide (0 < wtx.getBlocksToMaturity s.view)

def tallyTx (acc : Map Nat CompactTallyItem × DenomTable) (e : Uint256 × CWalletTx) :
    Option (Map Nat CompactTallyItem × DenomTable) :=
  if s.immature e.2 then some acc else e.2.vout.zipIdx.foldlM (s.tallyOutput cfg fSkipDenominated e.2) acc

def vecTally (mapTally : Map Nat CompactTallyItem) : List CompactTallyItem :=
  cfg.sortByAmount ((mapTally.toList.map (·.2)).filter fun item => !decide (item.nAmount < smallestDenomination))

/-- `SelectCoinsGrouppedByAddresses` behind the caches: the vector, and the table of rounds after it. -/
def recompute : Option (List CompactTallyItem × DenomTable) :=
  (s.mapWallet.toList.foldlM (s.tallyTx cfg fSkipDenominated) (∅, s.mDenomWtxes)).map fun (mapTally, m) =>
    (vecTally cfg mapTally, m)

def flag : Bool := if fSkipDenominated then s.fAnonymizableTallyCachedNonDenom else s.fAnonymizableTallyCached

def cached : List CompactTallyItem :=
  if fSkipDenominated then s.vecAnonymizableTallyCachedNonDenom else s.vecAnonymizableTallyCached

def selectCoinsGrouppedByAddresses : Option (List CompactTallyItem × MixingWallet) :=
  -- try to use cache
  if s.flag fSkipDenominated then some (s.cached fSkipDenominated, s)
  else
    (s.recompute cfg fSkipDenominated).map fun (vecTallyRet, m) =>
    -- cache anonymizable for later use
    (vecTallyRet,
      if fSkipDenominated then
        { s with
          mDenomWtxes := m, vecAnonymizableTallyCachedNonDenom := vecTallyRet, fAnonymizableTallyCachedNonDenom := true }
      else { s with mDenomWtxes := m, vecAnonymizableTallyCached := vecTallyRet, fAnonymizableTallyCached := true })

end

end MixingWallet

/-! ## Transactions the wallet hears of -/

/-- `pblock` is the block's hash and the transaction's place in it, which `SetMerkleBranch` looks up. -/
structure Heard where
  tx : CTransaction
  pblock : Option (Uint256 × Int)
  /-- `WriteToDisk` succeeds. -/
  fWritten : Bool

namespace CWallet

section
variable (cfg : Config) (v : View) (w : CWallet)

/-- The merge of `AddToWallet`. -/
def mergeTx (wtx wtxIn : CWalletTx) : CWalletTx :=
  let wtx := if !wtxIn.hashUnset && wtxIn.hashBlock != wtx.hashBlock then { wtx with hashBlock := wtxIn.hashBlock } else wtx
  -- If no longer abandoned, update
  let wtx := if wtxIn.hashBlock == 0 && wtx.isAbandoned then { wtx with hashBlock := wtxIn.hashBlock } else wtx
  if wtxIn.nIndex != -1 && wtxIn.nIndex != wtx.nIndex then { wtx with nIndex := wtxIn.nIndex } else wtx

def addToWallet (wtxIn : CWalletTx) (fWritten : Bool) : CWallet × Bool :=
  match w.mapWallet[wtxIn.hash]? with
  | none =>
    let w := addToSpends { w with mapWallet := w.mapWallet.insert wtxIn.hash wtxIn } wtxIn
    if fWritten then (w.clearTallies, true) else (w, false)
  | some wtx =>
    let w' := { w with mapWallet := w.mapWallet.insert wtxIn.hash (mergeTx wtx wtxIn) }
    if mergeTx wtx wtxIn ≠ wtx && !fWritten then (w', false) else (w'.clearTallies, true)

/-- `GetDebit` of a transaction; `none` where it throws. -/
def getDebit (tx : CTransaction) : Option CAmount :=
  tx.vin.foldlM (fun nDebit txin =>
    let nDebit := nDebit + ((w.mapWallet[txin.prevout.hash]?).bind fun prev => (prev.vout[txin.prevout.n]?).bind fun out =>
      if cfg.isMine out then some out.nValue else none).getD 0
    if moneyRange nDebit then some nDebit else none) 0

/-- `fExisted || IsMine(tx) || IsFromMe(tx)` -/
def involvesMe (tx : CTransaction) : Option Bool :=
  if w.mapWallet.contains tx.hash || tx.vout.any cfg.isMine then some true
  else (w.getDebit cfg tx).map fun nDebit => decide (0 < nDebit)

/-- The wallet transactions other than `tx` that spend an input of it. -/
def conflicting (tx : CTransaction) : List Uint256 :=
  tx.vin.flatMap fun txin =>
    ((w.mapTxSpends.filter fun e => e.1 = spendKey txin.prevout).map (·.2)).filter fun h => h ≠ tx.hash

def addToWalletIfInvolvingMe (t : Heard) : Option (CWallet × Bool) :=
  let conflicted : Option CWallet :=
    match t.pblock with
    | none => some w
    | some (hashBlock, _) => (w.conflicting t.tx).foldlM (fun w h => w.markConflicted v hashBlock h) w
  conflicted.bind fun w =>
  (w.involvesMe cfg t.tx).map fun involved =>
  if involved then
    let wtx : CWalletTx :=
      match t.pblock with
      | none => ⟨t.tx, 0, -1⟩
      | some (hashBlock, nIndex) => ⟨t.tx, hashBlock, nIndex⟩
    w.addToWallet wtx t.fWritten
  else (w, false)

def syncTransaction (t : Heard) : Option CWallet :=
  (w.addToWalletIfInvolvingMe cfg v t).map fun (w, added) => if added then w.clearTallies else w

end

end CWallet

/-! ## Events -/

inductive WalletEvent where
  | sync (t : Heard)
  | abandonTransaction (hashTx : Uint256)
  | markConflicted (hashBlock hashTx : Uint256)
  | lockCoin (output : COutPoint)
  | unlockCoin (output : COutPoint)
  | unlockAllCoins
  /-- A block is connected or disconnected. -/
  | block (v : View) (txs : List Heard)
  | select (fSkipDenominated : Bool)

namespace MixingWallet

def step (cfg : Config) (s : MixingWallet) : WalletEvent → Option MixingWallet
  | .sync t => (s.syncTransaction cfg s.view t).map fun w => { s with toCWallet := w }
  | .abandonTransaction hashTx =>
    (s.toCWallet.abandonTransaction s.view hashTx).map fun (w, _) => { s with toCWallet := w }
  | .markConflicted hashBlock hashTx =>
    (s.toCWallet.markConflicted s.view hashBlock hashTx).map fun w => { s with toCWallet := w }
  | .lockCoin output => some { s with setLockedCoins := insert output s.setLockedCoins, toCWallet := s.clearTallies }
  | .unlockCoin output => some { s with setLockedCoins := s.setLockedCoins.erase output, toCWallet := s.clearTallies }
  | .unlockAllCoins => some { s with setLockedCoins := ∅ }
  | .block v txs =>
    (txs.foldlM (fun (w : CWallet) t => w.syncTransaction cfg v t) s.toCWallet).map fun w => { s with view := v, toCWallet := w }
  | .select fSkipDenominated => (s.selectCoinsGrouppedByAddresses cfg fSkipDenominated).map Prod.snd

end MixingWallet

/-! ## What an event leaves of the transactions and the flags -/

/-- A transaction stands under its hash, and the table of rounds is about the wallet's transactions. -/
structure Filed (mapWallet : Map Uint256 CWalletTx) (M : DenomTable) : Prop where
  hash : ∀ (k : Uint256) (wtx : CWalletTx), mapWallet[k]? = some wtx → wtx.hash = k
  table : TableOk mapWallet M

variable {mapWallet : Map Uint256 CWalletTx} {M M' : DenomTable}

/-- A transaction is put in, with as many outputs as the one that stood there. -/
theorem Filed.insert (h : Filed mapWallet M) {k : Uint256} {wtx : CWalletTx} (hk : wtx.hash = k)
    (hvout : ∀ old, mapWallet[k]? = some old → wtx.vout = old.vout) : Filed (mapWallet.insert k wtx) M where
  hash a x hget := by
    rw [lookup_insert] at hget
    split at hget
    · next heq =>
      cases hget
      rw [heq, hk]
    · exact h.hash a x hget
  table a rounds hget := by
    obtain ⟨old, hold, hlength⟩ := h.table a rounds hget
    rw [lookup_insert]
    by_cases ha : a = k
    · subst ha
      exact ⟨wtx, if_pos rfl, by rw [hlength, hvout old hold]⟩
    · exact ⟨old, by rw [if_neg ha, hold], hlength⟩

namespace CWallet

def flagged (w : CWallet) : Bool := w.fAnonymizableTallyCached || w.fAnonymizableTallyCachedNonDenom

/-- The two outcomes of what can change a spender: the flags are reset, or nothing was changed. -/
def Untouched (w w' : CWallet) : Prop := w' = w ∨ w'.flagged = false

variable {cfg : Config} {v : View} {w w' : CWallet} {t : Heard} {hashBlock hashTx : Uint256}

theorem Untouched.trans {w₁ w₂ : CWallet} (h : w.Untouched w₁) (h' : w₁.Untouched w₂) : w.Untouched w₂ := by
  obtain rfl | hclear := h'
  · exact h
  · exact .inr hclear

theorem Untouched.flagged_false (h : w.Untouched w') (hw : w.flagged = false) : w'.flagged = false := by
  obtain rfl | hclear := h
  · exact hw
  · exact hclear

theorem abandonVisit_filed {now : Uint256} {r : CWallet × Finset Uint256} (h : Filed w.mapWallet M)
    (hrun : w.abandonVisit v hashTx now = some r) : Filed r.1.mapWallet M := by
  obtain ⟨wtx, hwtx, hrun⟩ := Option.bind_eq_some_iff.1 hrun
  dsimp only at hrun
  split at hrun
  · cases hrun
  · split at hrun
    · split at hrun
      · cases hrun
      · cases hrun
        refine h.insert (h.hash now wtx hwtx) fun old hold => ?_
        cases hwtx.symm.trans hold
        rfl
    · cases hrun
      exact h

theorem conflictVisit_filed {now : Uint256} {r : CWallet × Finset Uint256} (h : Filed w.mapWallet M)
    (hrun : w.conflictVisit v hashBlock now = some r) : Filed r.1.mapWallet M := by
  obtain ⟨wtx, hwtx, hrun⟩ := Option.bind_eq_some_iff.1 hrun
  dsimp only at hrun
  split at hrun
  · cases hrun
    refine h.insert (h.hash now wtx hwtx) fun old hold => ?_
    cases hwtx.symm.trans hold
    rfl
  · cases hrun
    exact h

theorem abandonTransaction_filed {r : CWallet × Bool} (h : Filed w.mapWallet M)
    (hrun : w.abandonTransaction v hashTx = some r) : Filed r.1.mapWallet M := by
  obtain ⟨origtx, -, hrun⟩ := Option.bind_eq_some_iff.1 hrun
  split at hrun
  · cases hrun
    exact h
  · obtain ⟨w₁, hsweep, rfl⟩ := Option.map_eq_some_iff.1 hrun
    show Filed w₁.mapWallet M
    exact sweep_inv (fun w : CWallet => Filed w.mapWallet M) (fun w now r => abandonVisit_filed) h hsweep

theorem abandonTransaction_untouched {r : CWallet × Bool} (hrun : w.abandonTransaction v hashTx = some r) :
    w.Untouched r.1 := by
  obtain ⟨origtx, -, hrun⟩ := Option.bind_eq_some_iff.1 hrun
  split at hrun
  · cases hrun
    exact .inl rfl
  · obtain ⟨w₁, -, rfl⟩ := Option.map_eq_some_iff.1 hrun
    exact .inr rfl

theorem markConflicted_filed (h : Filed w.mapWallet M) (hrun : w.markConflicted v hashBlock hashTx = some w') :
    Filed w'.mapWallet M := by
  unfold markConflicted at hrun
  split at hrun
  · cases hrun
    exact h
  · obtain ⟨w₁, hsweep, rfl⟩ := Option.map_eq_some_iff.1 hrun
    show Filed w₁.mapWallet M
    exact sweep_inv (fun w : CWallet => Filed w.mapWallet M) (fun w now r => conflictVisit_filed) h hsweep

theorem markConflicted_untouched (hrun : w.markConflicted v hashBlock hashTx = some w') : w.Untouched w' := by
  unfold markConflicted at hrun
  split at hrun
  · cases hrun
    exact .inl rfl
  · obtain ⟨w₁, -, rfl⟩ := Option.map_eq_some_iff.1 hrun
    exact .inr rfl

theorem markConflicted_flagged (hconfirms : conflictConfirms v hashBlock < 0)
    (hrun : w.markConflicted v hashBlock hashTx = some w') : w'.flagged = false := by
  unfold markConflicted at hrun
  rw [if_neg (not_le.2 hconfirms)] at hrun
  obtain ⟨w₁, -, rfl⟩ := Option.map_eq_some_iff.1 hrun
  rfl

theorem markAll_spec (hashes : List Uint256)
    (hrun : hashes.foldlM (fun (w : CWallet) h => w.markConflicted v hashBlock h) w = some w') :
    (∀ M, Filed w.mapWallet M → Filed w'.mapWallet M) ∧ w.Untouched w' ∧
      (conflictConfirms v hashBlock < 0 → hashes ≠ [] → w'.flagged = false) := by
  induction hashes generalizing w with
  | nil =>
    cases hrun
    exact ⟨fun M hw => hw, .inl rfl, fun _ hne => absurd rfl hne⟩
  | cons h hashes ih =>
    rw [List.foldlM_cons] at hrun
    obtain ⟨w₁, hmark, hrest⟩ := Option.bind_eq_some_iff.1 hrun
    obtain ⟨hfiled, huntouched, -⟩ := ih hrest
    refine ⟨fun M hw => hfiled M (markConflicted_filed hw hmark), (markConflicted_untouched hmark).trans huntouched, ?_⟩
    intro hconfirms _
    exact huntouched.flagged_false (markConflicted_flagged hconfirms hmark)

theorem mergeTx_tx (wtx wtxIn : CWalletTx) : (mergeTx wtx wtxIn).toCTransaction = wtx.toCTransaction := by
  simp only [mergeTx]
  split_ifs <;> rfl

theorem addToSpends_mapWallet (wtx : CWalletTx) : (w.addToSpends wtx).mapWallet = w.mapWallet := by
  unfold addToSpends
  split
  · rfl
  · rfl

theorem addToSpends_flagged (wtx : CWalletTx) : (w.addToSpends wtx).flagged = w.flagged := by
  unfold addToSpends
  split
  · rfl
  · rfl

theorem addToWallet_filed (h : Filed w.mapWallet M) (wtxIn : CWalletTx) (fWritten : Bool) :
    Filed (w.addToWallet wtxIn fWritten).1.mapWallet M := by
  unfold addToWallet
  cases hold : w.mapWallet[wtxIn.hash]? with
  | none =>
    have hinsert : Filed (w.mapWallet.insert wtxIn.hash wtxIn) M :=
      h.insert rfl fun old hget => by
        cases hold.symm.trans hget
    dsimp only
    split
    · show Filed (addToSpends _ wtxIn).mapWallet M
      rw [addToSpends_mapWallet]
      exact hinsert
    · show Filed (addToSpends _ wtxIn).mapWallet M
      rw [addToSpends_mapWallet]
      exact hinsert
  | some wtx =>
    have hinsert : Filed (w.mapWallet.insert wtxIn.hash (mergeTx wtx wtxIn)) M :=
      h.insert (by rw [mergeTx_tx, h.hash _ wtx hold]) fun old hget => by
        cases hold.symm.trans hget
        rw [mergeTx_tx]
    dsimp only
    split
    · exact hinsert
    · exact hinsert

/-- A transaction that is taken in clears both flags, unless writing it fails. -/
theorem addToWallet_flagged (wtxIn : CWalletTx) {fWritten : Bool} (h : w.flagged = true → fWritten = true) :
    (w.addToWallet wtxIn fWritten).1.flagged = false := by
  unfold addToWallet
  cases w.mapWallet[wtxIn.hash]? with
  | none =>
    dsimp only
    split
    · rfl
    · next hwritten =>
      show (addToSpends _ wtxIn).flagged = false
      rw [addToSpends_flagged]
      exact Bool.eq_false_iff.2 fun hflagged => hwritten (h hflagged)
  | some wtx =>
    dsimp only
    split
    · next hfail =>
      rw [Bool.and_eq_true, Bool.not_eq_true'] at hfail
      refine Bool.eq_false_iff.2 fun hflagged => ?_
      rw [h hflagged] at hfail
      cases hfail.2
    · rfl

/-- A transaction that the wallet takes in, or that conflicts with one of the wallet's. -/
def Concerns (cfg : Config) (v : View) (w : CWallet) (t : Heard) : Prop :=
  w.involvesMe cfg t.tx = some true ∨ ∃ b ∈ t.pblock, conflictConfirms v b.1 < 0 ∧ w.conflicting t.tx ≠ []

instance (w : CWallet) (t : Heard) : Decidable (w.Concerns cfg v t) :=
  match h : t.pblock with
  | none => decidable_of_iff (w.involvesMe cfg t.tx = some true) (by simp [Concerns, h])
  | some b =>
    decidable_of_iff (w.involvesMe cfg t.tx = some true ∨ conflictConfirms v b.1 < 0 ∧ w.conflicting t.tx ≠ [])
      (by simp [Concerns, h])

/-- What `SyncTransaction` does to the flags, and that it keeps the transactions' outputs. -/
structure SyncSpec (cfg : Config) (v : View) (w : CWallet) (t : Heard) (w' : CWallet) : Prop where
  filed : ∀ M, Filed w.mapWallet M → Filed w'.mapWallet M
  untouched : (w.flagged = true → t.fWritten = true) → w.Untouched w'
  cleared : (w.flagged = true → t.fWritten = true) → w.Concerns cfg v t → w'.flagged = false

theorem sync_spec (hrun : w.syncTransaction cfg v t = some w') : SyncSpec cfg v w t w' := by
  obtain ⟨⟨w₂, added⟩, hadd, rfl⟩ := Option.map_eq_some_iff.1 hrun
  obtain ⟨w₁, hconflicted, hadd⟩ := Option.bind_eq_some_iff.1 hadd
  obtain ⟨involved, hinvolved, hadd⟩ := Option.map_eq_some_iff.1 hadd
  -- the conflicts that a block brings come first
  have hmarked : (∀ M, Filed w.mapWallet M → Filed w₁.mapWallet M) ∧ w.Untouched w₁ ∧
      ((∃ b ∈ t.pblock, conflictConfirms v b.1 < 0 ∧ w.conflicting t.tx ≠ []) → w₁.flagged = false) := by
    cases hblock : t.pblock with
    | none =>
      rw [hblock] at hconflicted
      cases hconflicted
      refine ⟨fun M hw => hw, .inl rfl, fun hex => ?_⟩
      obtain ⟨b, hb, -⟩ := hex
      cases hb
    | some b =>
      rw [hblock] at hconflicted
      obtain ⟨hfiled, huntouched, hclear⟩ := markAll_spec _ hconflicted
      refine ⟨hfiled, huntouched, fun hex => ?_⟩
      obtain ⟨b', hb', hconfirms, hne⟩ := hex
      cases hb'
      exact hclear hconfirms hne
  obtain ⟨hfiled₁, huntouched₁, hcleared₁⟩ := hmarked
  cases involved with
  | false =>
    cases hadd
    refine ⟨hfiled₁, fun _ => huntouched₁, fun _ hconcerns => ?_⟩
    obtain hinv | hex := hconcerns
    · obtain rfl | hclear := huntouched₁
      · cases hinvolved.symm.trans hinv
      · exact hclear
    · exact hcleared₁ hex
  | true =>
    rw [if_pos rfl] at hadd
    have hfiled₂ (wtxIn : CWalletTx) (hadd : w₁.addToWallet wtxIn t.fWritten = (w₂, added)) :
        ∀ M, Filed w.mapWallet M → Filed (if added then w₂.clearTallies else w₂).mapWallet M := by
      intro M hw
      have hadded := addToWallet_filed (hfiled₁ M hw) wtxIn t.fWritten
      rw [hadd] at hadded
      split
      · exact hadded
      · exact hadded
    have hflagged (wtxIn : CWalletTx) (hadd : w₁.addToWallet wtxIn t.fWritten = (w₂, added))
        (hwritten : w.flagged = true → t.fWritten = true) : (if added then w₂.clearTallies else w₂).flagged = false := by
      have hfirst (hflagged : w₁.flagged = true) : t.fWritten = true := by
        refine hwritten (by_contra fun hw => ?_)
        rw [huntouched₁.flagged_false (Bool.eq_false_iff.2 hw)] at hflagged
        cases hflagged
      have hadded : w₂.flagged = false := by
        have hclear := addToWallet_flagged wtxIn hfirst
        rwa [hadd] at hclear
      split
      · rfl
      · exact hadded
    exact ⟨hfiled₂ _ hadd, fun hwritten => .inr (hflagged _ hadd hwritten), fun hwritten _ => hflagged _ hadd hwritten⟩

end CWallet

/-! ## The outputs that are counted -/

/-- The values of `M` stay in `M'`. -/
def Keeps (M M' : DenomTable) : Prop := ∀ o n, values M o = some n → values M' o = some n

theorem Keeps.trans {M'' : DenomTable} (h : Keeps M M') (h' : Keeps M' M'') : Keeps M M'' :=
  fun o n hn => h' o n (h o n hn)

section
variable (isMine : CTxOut → Bool) {o : COutPoint} {n : Int}

theorem getReal_of_value (left : Nat) (ho : InWallet mapWallet o) (h : values M o = some n) :
    getRealInputPrivateSendRounds mapWallet isMine (left + 1) M o = some (n, M) := by
  obtain ⟨wtx, hwtx, -⟩ := ho
  obtain ⟨vout, hvout, hr⟩ := Option.bind_eq_some_iff.1 h
  obtain ⟨r, hget, hr⟩ := Option.bind_eq_some_iff.1 hr
  rw [getRealInputPrivateSendRounds, hwtx]
  simp only [hvout, hget, Option.bind_some]
  split at hr
  · cases hr
  · next hne =>
    cases hr
    rw [if_pos hne]

/-- A query of an output of the wallet leaves its rounds in the table, with all that was there. -/
theorem getReal_settles (hM : TableOk mapWallet M) (ho : InWallet mapWallet o) :
    ∃ n M', getRealInputPrivateSendRounds mapWallet isMine 16 M o = some (n, M') ∧ TableOk mapWallet M' ∧ Keeps M M' ∧
      values M' o = some n := by
  obtain ⟨M', hrun, hafter⟩ := getReal_eval mapWallet isMine 16 M o hM ho
  refine ⟨_, M', hrun, hafter.ok, fun x b hx => ?_, ?_⟩
  · rw [hafter.values]
    exact eval_keeps hx
  · rw [hafter.values]
    exact eval_settles

end

structure Coin where
  prevout : COutPoint
  address : Nat
  nValue : CAmount
  deriving DecidableEq

namespace MixingWallet

section
variable (cfg : Config) (s : MixingWallet) (fSkipDenominated : Bool)

def counts (wtx : CWalletTx) (i : Nat) (out : CTxOut) : Option Nat :=
  if s.immature wtx then none else s.countedOutput cfg fSkipDenominated wtx i out

def coinsOf (wtx : CWalletTx) : List Coin :=
  wtx.vout.zipIdx.filterMap fun e =>
    (s.counts cfg fSkipDenominated wtx e.2 e.1).map fun address => ⟨⟨wtx.hash, e.2⟩, address, e.1.nValue⟩

def coins : List Coin := s.mapWallet.toList.flatMap fun e => s.coinsOf cfg fSkipDenominated e.2

def tallyCoin (acc : Map Nat CompactTallyItem × DenomTable) (c : Coin) : Option (Map Nat CompactTallyItem × DenomTable) :=
  (s.getInputPrivateSendRounds cfg acc.2 c.prevout).map fun (nRounds, m) =>
  if nRounds ≥ cfg.nPrivateSendRounds then (acc.1, m) else (addToTally acc.1 c.address c.nValue c.prevout, m)

end

variable {cfg : Config} {s s' : MixingWallet} {fSkipDenominated : Bool}

theorem tallyTx_eq (acc : Map Nat CompactTallyItem × DenomTable) (e : Uint256 × CWalletTx) :
    s.tallyTx cfg fSkipDenominated acc e = (s.coinsOf cfg fSkipDenominated e.2).foldlM (s.tallyCoin cfg) acc := by
  rw [tallyTx]
  split
  · next himmature =>
    have hnil : s.coinsOf cfg fSkipDenominated e.2 = [] :=
      List.filterMap_eq_nil_iff.2 fun o _ => by rw [counts, if_pos himmature, Option.map_none]
    rw [hnil]
    rfl
  · next hmature =>
    rw [coinsOf, List.foldlM_filterMap]
    congr 1
    funext acc o
    rw [tallyOutput, counts, if_neg hmature]
    cases s.countedOutput cfg fSkipDenominated e.2 o.2 o.1 with
    | none => rfl
    | some address => rfl

theorem recompute_eq : s.recompute cfg fSkipDenominated =
    ((s.coins cfg fSkipDenominated).foldlM (s.tallyCoin cfg) (∅, s.mDenomWtxes)).map fun r => (vecTally cfg r.1, r.2) := by
  have hloops (es : List (Uint256 × CWalletTx)) : ∀ acc, es.foldlM (s.tallyTx cfg fSkipDenominated) acc =
      (es.flatMap fun e => s.coinsOf cfg fSkipDenominated e.2).foldlM (s.tallyCoin cfg) acc := by
    induction es with
    | nil => exact fun acc => rfl
    | cons e es ih =>
      intro acc
      rw [List.foldlM_cons, List.flatMap_cons, List.foldlM_append, tallyTx_eq]
      exact congrArg _ (funext ih)
  rw [recompute, hloops]
  rfl

theorem inWallet_of_mem_coins (h : Filed s.mapWallet M) {c : Coin} (hc : c ∈ s.coins cfg fSkipDenominated) :
    InWallet s.mapWallet c.prevout := by
  obtain ⟨e, he, hc⟩ := List.mem_flatMap.1 hc
  obtain ⟨⟨out, i⟩, ho, hcount⟩ := List.mem_filterMap.1 hc
  obtain ⟨address, -, rfl⟩ := Option.map_eq_some_iff.1 hcount
  have hwtx := Std.TreeMap.mem_toList_iff_getElem?_eq_some.1 he
  have hhash := h.hash e.1 e.2 hwtx
  refine ⟨e.2, by rw [hhash, hwtx], ?_⟩
  exact (List.getElem?_eq_some_iff.1 (List.mem_zipIdx_iff_getElem?.1 ho)).1

theorem tallyCoin_of_real {c : Coin} {n : Int}
    (hreal : getRealInputPrivateSendRounds s.mapWallet cfg.isMine 16 M c.prevout = some (n, M')) (mapTally : Map Nat CompactTallyItem) :
    s.tallyCoin cfg (mapTally, M) c = some
      (if (if n > cfg.nPrivateSendRounds then cfg.nPrivateSendRounds else n) ≥ cfg.nPrivateSendRounds then mapTally
        else addToTally mapTally c.address c.nValue c.prevout, M') := by
  rw [tallyCoin, getInputPrivateSendRounds, hreal]
  simp only [Option.map_some, Option.some.injEq]
  split_ifs <;> rfl

/-- A run over outputs of the wallet settles their rounds: from a table that keeps them, it gives the same tally. -/
theorem foldlM_tallyCoin {cs : List Coin} {mapTally mapTally' : Map Nat CompactTallyItem}
    (hcs : ∀ c ∈ cs, InWallet s.mapWallet c.prevout) (hM : TableOk s.mapWallet M)
    (hrun : cs.foldlM (s.tallyCoin cfg) (mapTally, M) = some (mapTally', M')) :
    TableOk s.mapWallet M' ∧ Keeps M M' ∧
      ∀ M'', Keeps M' M'' → cs.foldlM (s.tallyCoin cfg) (mapTally, M'') = some (mapTally', M'') := by
  induction cs generalizing mapTally M with
  | nil =>
    cases hrun
    exact ⟨hM, fun _ _ h => h, fun _ _ => rfl⟩
  | cons c cs ih =>
    obtain ⟨hc, hcs⟩ := List.forall_mem_cons.1 hcs
    obtain ⟨n, M₁, hreal, hM₁, hkeeps₁, hvalue⟩ := getReal_settles cfg.isMine hM hc
    rw [List.foldlM_cons, tallyCoin_of_real hreal] at hrun
    obtain ⟨hok, hkeeps, hagain⟩ := ih hcs hM₁ hrun
    refine ⟨hok, hkeeps₁.trans hkeeps, fun M'' hM'' => ?_⟩
    have hreal' := getReal_of_value cfg.isMine 15 hc (hM'' _ _ (hkeeps _ _ hvalue))
    rw [List.foldlM_cons, tallyCoin_of_real hreal']
    exact hagain M'' hM''

/-! ## The caches -/

/-- What is cached is the tally of the counted outputs, from any table that keeps the present values. -/
def Served (cfg : Config) (s : MixingWallet) (fSkipDenominated : Bool) : Prop :=
  ∃ mapTally, s.cached fSkipDenominated = vecTally cfg mapTally ∧
    ∀ M, Keeps s.mDenomWtxes M → (s.coins cfg fSkipDenominated).foldlM (s.tallyCoin cfg) (∅, M) = some (mapTally, M)

structure Inv (cfg : Config) (s : MixingWallet) : Prop where
  filed : Filed s.mapWallet s.mDenomWtxes
  served : ∀ fSkipDenominated, s.flag fSkipDenominated = true → Served cfg s fSkipDenominated

theorem Inv.of_flagged_false (hfiled : Filed s.mapWallet s.mDenomWtxes) (h : s.flagged = false) : Inv cfg s where
  filed := hfiled
  served fSkipDenominated hflag := by
    rw [CWallet.flagged, Bool.or_eq_false_iff] at h
    cases fSkipDenominated with
    | false => cases h.1.symm.trans hflag
    | true => cases h.2.symm.trans hflag

theorem Inv.select_eq (h : Inv cfg s) (fSkipDenominated : Bool) :
    (s.selectCoinsGrouppedByAddresses cfg fSkipDenominated).map Prod.fst = (s.recompute cfg fSkipDenominated).map Prod.fst := by
  rw [selectCoinsGrouppedByAddresses]
  cases hflag : s.flag fSkipDenominated with
  | false =>
    rw [if_neg Bool.false_ne_true, Option.map_map]
    rfl
  | true =>
    obtain ⟨mapTally, hcached, hagain⟩ := h.served fSkipDenominated hflag
    rw [if_pos rfl, recompute_eq, hagain _ fun _ _ hn => hn, Option.map_some, Option.map_some, Option.map_some, hcached]

/-- The counted outputs of a state with the same transactions and rounds are the same, one by one. -/
def SameCounts (cfg : Config) (s s' : MixingWallet) : Prop :=
  ∀ fSkipDenominated, s.flag fSkipDenominated = true → ∀ e ∈ s.mapWallet.toList, ∀ o ∈ e.2.vout.zipIdx,
    s'.counts cfg fSkipDenominated e.2 o.2 o.1 = s.counts cfg fSkipDenominated e.2 o.2 o.1

instance (s s' : MixingWallet) : Decidable (SameCounts cfg s s') := inferInstanceAs (Decidable (∀ _, _))

theorem SameCounts.coins_eq (h : SameCounts cfg s s') (hmap : s'.mapWallet = s.mapWallet)
    (hflag : s.flag fSkipDenominated = true) : s'.coins cfg fSkipDenominated = s.coins cfg fSkipDenominated := by
  unfold coins
  rw [hmap]
  refine List.flatMap_congr fun e he => List.filterMap_congr fun o ho => ?_
  rw [h fSkipDenominated hflag e he o ho]

theorem Inv.of_sameCounts (h : Inv cfg s) (hsame : SameCounts cfg s s') (hwallet : s'.toCWallet = s.toCWallet)
    (htable : s'.mDenomWtxes = s.mDenomWtxes) (hcached : s'.cached = s.cached) : Inv cfg s' where
  filed := by
    rw [hwallet, htable]
    exact h.filed
  served fSkipDenominated hflag' := by
    have hflag : s.flag fSkipDenominated = true := by
      rw [← hflag', flag, flag, hwallet]
    obtain ⟨mapTally, hc, hagain⟩ := h.served fSkipDenominated hflag
    have hcoin : s'.tallyCoin cfg = s.tallyCoin cfg := by
      funext acc c
      rw [tallyCoin, tallyCoin, getInputPrivateSendRounds, getInputPrivateSendRounds, hwallet]
    refine ⟨mapTally, by rw [hcached, hc], ?_⟩
    rw [hsame.coins_eq (by rw [hwallet]) hflag, hcoin, htable]
    exact hagain

theorem Inv.select (h : Inv cfg s) {r : List CompactTallyItem × MixingWallet}
    (hrun : s.selectCoinsGrouppedByAddresses cfg fSkipDenominated = some r) : Inv cfg r.2 := by
  rw [selectCoinsGrouppedByAddresses] at hrun
  split at hrun
  · cases hrun
    exact h
  · rw [recompute_eq, Option.map_map] at hrun
    obtain ⟨⟨mapTally, M'⟩, hfold, rfl⟩ := Option.map_eq_some_iff.1 hrun
    obtain ⟨hok, hkeeps, hagain⟩ := foldlM_tallyCoin (fun c hc => inWallet_of_mem_coins h.filed hc) h.filed.table hfold
    have hother (f : Bool) (hflag : s.flag f = true) : ∃ mapTally, s.cached f = vecTally cfg mapTally ∧
        ∀ M, Keeps M' M → (s.coins cfg f).foldlM (s.tallyCoin cfg) (∅, M) = some (mapTally, M) := by
      obtain ⟨mapTally, hc, hother⟩ := h.served f hflag
      exact ⟨mapTally, hc, fun M hM => hother M (hkeeps.trans hM)⟩
    cases fSkipDenominated with
    | false =>
      refine ⟨⟨h.filed.hash, hok⟩, fun f hflag => ?_⟩
      cases f with
      | false => exact ⟨mapTally, rfl, hagain⟩
      | true => exact hother true hflag
    | true =>
      refine ⟨⟨h.filed.hash, hok⟩, fun f hflag => ?_⟩
      cases f with
      | false => exact hother false hflag
      | true => exact ⟨mapTally, rfl, hagain⟩

/-! ## Runs -/

/-- While a tally is cached: a write of the wallet file succeeds; unlocking all coins changes no output's count; and
    neither does the new view of a block with no transaction that concerns the wallet. -/
def StepOk (cfg : Config) (s : MixingWallet) : WalletEvent → Prop
  | .sync t => s.flagged = true → t.fWritten = true
  | .unlockAllCoins => SameCounts cfg s { s with setLockedCoins := ∅ }
  | .block v txs => s.flagged = true →
      (∀ t ∈ txs, t.fWritten = true) ∧ ((∃ t ∈ txs, s.Concerns cfg v t) ∨ SameCounts cfg s { s with view := v })
  | _ => True

instance (s : MixingWallet) : (e : WalletEvent) → Decidable (StepOk cfg s e)
  | .sync t => inferInstanceAs (Decidable (s.flagged = true → t.fWritten = true))
  | .unlockAllCoins => inferInstanceAs (Decidable (SameCounts cfg s { s with setLockedCoins := ∅ }))
  | .block v txs => inferInstanceAs (Decidable (s.flagged = true →
      (∀ t ∈ txs, t.fWritten = true) ∧ ((∃ t ∈ txs, s.Concerns cfg v t) ∨ SameCounts cfg s { s with view := v })))
  | .abandonTransaction _ | .markConflicted _ _ | .lockCoin _ | .unlockCoin _ | .select _ => .isTrue trivial

/-- The induction is on the block's transactions: until one concerns the wallet it stays as it is. -/
theorem block_spec {w w' : CWallet} {v : View} (txs : List Heard)
    (hrun : txs.foldlM (fun (w : CWallet) t => w.syncTransaction cfg v t) w = some w') :
    (∀ M, Filed w.mapWallet M → Filed w'.mapWallet M) ∧
      ((w.flagged = true → ∀ t ∈ txs, t.fWritten = true) →
        w.Untouched w' ∧ ((∃ t ∈ txs, w.Concerns cfg v t) → w'.flagged = false)) := by
  induction txs generalizing w with
  | nil =>
    cases hrun
    refine ⟨fun M hw => hw, fun _ => ⟨.inl rfl, fun hex => ?_⟩⟩
    obtain ⟨t, ht, -⟩ := hex
    cases ht
  | cons t txs ih =>
    rw [List.foldlM_cons] at hrun
    obtain ⟨w₁, hsync, hrest⟩ := Option.bind_eq_some_iff.1 hrun
    obtain ⟨hfiled₁, huntouched₁, hcleared₁⟩ := CWallet.sync_spec hsync
    obtain ⟨hfiled, hafter⟩ := ih hrest
    refine ⟨fun M hw => hfiled M (hfiled₁ M hw), fun hwritten => ?_⟩
    have hfirst (hflagged : w.flagged = true) : t.fWritten = true := hwritten hflagged t List.mem_cons_self
    have huntouched := huntouched₁ hfirst
    obtain ⟨huntouched', hcleared⟩ := hafter fun hflagged t' ht' => by
      refine hwritten (by_contra fun hw => ?_) t' (List.mem_cons_of_mem t ht')
      rw [huntouched.flagged_false (Bool.eq_false_iff.2 hw)] at hflagged
      cases hflagged
    refine ⟨huntouched.trans huntouched', fun hex => ?_⟩
    obtain ⟨t', ht', hconcerns⟩ := hex
    obtain rfl | ht' := List.mem_cons.1 ht'
    · exact huntouched'.flagged_false (hcleared₁ hfirst hconcerns)
    · obtain rfl | hclear := huntouched
      · exact hcleared ⟨t', ht', hconcerns⟩
      · exact huntouched'.flagged_false hclear

theorem Inv.of_untouched (h : Inv cfg s) {w : CWallet} (hfiled : ∀ M, Filed s.mapWallet M → Filed w.mapWallet M)
    (hw : s.Untouched w) : Inv cfg { s with toCWallet := w } := by
  obtain rfl | hclear := hw
  · exact h
  · exact Inv.of_flagged_false (hfiled _ h.filed) hclear

theorem Inv.step (h : Inv cfg s) {e : WalletEvent} (hok : StepOk cfg s e) (hrun : s.step cfg e = some s') : Inv cfg s' := by
  cases e with
  | sync t =>
    obtain ⟨w, hsync, rfl⟩ := Option.map_eq_some_iff.1 hrun
    obtain ⟨hfiled, huntouched, -⟩ := CWallet.sync_spec hsync
    exact h.of_untouched hfiled (huntouched hok)
  | abandonTransaction hashTx =>
    obtain ⟨r, habandon, rfl⟩ := Option.map_eq_some_iff.1 hrun
    exact h.of_untouched (fun M hw => CWallet.abandonTransaction_filed hw habandon)
      (CWallet.abandonTransaction_untouched habandon)
  | markConflicted hashBlock hashTx =>
    obtain ⟨w, hmark, rfl⟩ := Option.map_eq_some_iff.1 hrun
    exact h.of_untouched (fun M hw => CWallet.markConflicted_filed hw hmark) (CWallet.markConflicted_untouched hmark)
  | lockCoin output =>
    cases hrun
    exact Inv.of_flagged_false h.filed rfl
  | unlockCoin output =>
    cases hrun
    exact Inv.of_flagged_false h.filed rfl
  | unlockAllCoins =>
    cases hrun
    exact h.of_sameCounts hok rfl rfl rfl
  | block v txs =>
    obtain ⟨w, hblock, rfl⟩ := Option.map_eq_some_iff.1 hrun
    obtain ⟨hfiled, hafter⟩ := block_spec txs hblock
    obtain ⟨huntouched, hcleared⟩ := hafter fun hflagged => (hok hflagged).1
    cases hflagged : s.flagged with
    | false => exact Inv.of_flagged_false (hfiled _ h.filed) (huntouched.flagged_false hflagged)
    | true =>
      obtain ⟨-, hconcerned | hsame⟩ := hok hflagged
      · exact Inv.of_flagged_false (hfiled _ h.filed) (hcleared hconcerned)
      · obtain rfl | hclear := huntouched
        · exact h.of_sameCounts hsame rfl rfl rfl
        · exact Inv.of_flagged_false (hfiled _ h.filed) hclear
  | select fSkipDenominated =>
    obtain ⟨r, hselect, rfl⟩ := Option.map_eq_some_iff.1 hrun
    exact h.select hselect

/-- A wallet as it is loaded: no tally is cached, and no rounds were computed. -/
structure Loaded (s : MixingWallet) : Prop where
  hash : ∀ (k : Uint256) (wtx : CWalletTx), s.mapWallet[k]? = some wtx → wtx.hash = k
  table : s.mDenomWtxes = ∅
  flags : s.flagged = false

/-- In every run whose steps meet their conditions, both tallies are those that would be computed. -/
theorem tally_cached {s₀ : MixingWallet} (hs₀ : Loaded s₀) {es : List WalletEvent}
    (hm : Meets (MixingWallet.step cfg) (StepOk cfg) s₀ es) (hrun : run (MixingWallet.step cfg) s₀ es = some s)
    (fSkipDenominated : Bool) :
    (s.selectCoinsGrouppedByAddresses cfg fSkipDenominated).map Prod.fst = (s.recompute cfg fSkipDenominated).map Prod.fst := by
  have hstart : Inv cfg s₀ := by
    refine Inv.of_flagged_false ⟨hs₀.hash, fun h vout hget => ?_⟩ hs₀.flags
    rw [hs₀.table] at hget
    simp at hget
  have hinv : Inv cfg s := run_inv_of_meets (Inv cfg) (fun s e s' hi hok hstep => hi.step hok hstep) hm hstart hrun
  exact hinv.select_eq fSkipDenominated

/-! ## Coins that were locked -/

/-- A node with so many blocks, none of which holds a transaction of the wallet. -/
def nodeAt (height : Nat) : View where
  height := height
  active _ := none
  mempool _ := false
  isLockedInstantSendTransaction _ := false
  nInstantSendDepth := 5
  active_le _ _ hb := by cases hb
  active_unset _ _ := rfl

def oneAddress : Config where
  extractDestination _ := some 0
  isSpendable _ := true
  isMine _ := true
  fMasterNode := false
  nPrivateSendRounds := 2
  sortByAmount := id

def payment : CWalletTx := ⟨⟨[⟨⟨5, 0⟩, [], 0⟩], [⟨50 * coin, []⟩, ⟨20 * coin, []⟩], 7⟩, 0, -1⟩

def onePayment : MixingWallet where
  mapWallet := (∅ : Map Uint256 CWalletTx).insert 7 payment
  mapTxSpends := [(spendKey ⟨5, 0⟩, 7)]
  fAnonymizableTallyCached := false
  fAnonymizableTallyCachedNonDenom := false
  view := nodeAt 10
  setLockedCoins := ∅
  mDenomWtxes := ∅
  vecAnonymizableTallyCached := []
  vecAnonymizableTallyCachedNonDenom := []

theorem loaded_onePayment : Loaded onePayment where
  hash k wtx hget := by
    rw [onePayment, lookup_insert] at hget
    split at hget
    · next hk =>
      cases hget
      exact hk.symm
    · simp at hget
  table := rfl
  flags := rfl

/-- A coin is locked and unlocked again, and a block without a transaction of the wallet is connected. -/
def lockedAndUnlocked : List WalletEvent :=
  [.select false, .lockCoin ⟨7, 0⟩, .select false, .unlockCoin ⟨7, 0⟩, .select false, .block (nodeAt 11) []]

theorem tally_cached_sample :
    ∃ s, run (MixingWallet.step oneAddress) onePayment lockedAndUnlocked = some s ∧ s.flag false = true ∧
      ∀ f, (s.selectCoinsGrouppedByAddresses oneAddress f).map Prod.fst = (s.recompute oneAddress f).map Prod.fst := by
  obtain ⟨s, hs, hflag⟩ : ∃ s, run (MixingWallet.step oneAddress) onePayment lockedAndUnlocked = some s ∧ s.flag false = true :=
    ⟨_, rfl, rfl⟩
  exact ⟨s, hs, hflag, tally_cached loaded_onePayment (by decide +kernel) hs⟩

/-- The coins that `UnlockAllCoins` unlocks stay out of the cached tally. -/
theorem unlocked_coin_missing :
    ∃ s, run (MixingWallet.step oneAddress) onePayment [.lockCoin ⟨7, 0⟩, .select false, .unlockAllCoins] = some s ∧
      (s.selectCoinsGrouppedByAddresses oneAddress false).map Prod.fst = some [⟨0, 20 * coin, [⟨7, 1⟩]⟩] ∧
      (s.recompute oneAddress false).map Prod.fst = some [⟨0, 70 * coin, [⟨7, 0⟩, ⟨7, 1⟩]⟩] :=
  ⟨_, rfl, by decide +kernel, by decide +kernel⟩

end MixingWallet

end Zumy.Ledger
