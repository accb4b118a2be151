/-
  Zumy.Wallet.Ledger — the wallet's transactions, their place in the chain and what spends
  them (`wallet/wallet.cpp`, `wallet/wallet.h`: `CMerkleTx`, `CWallet::IsSpent`,
  `AddToSpends`, `AbandonTransaction`, `MarkConflicted`).

  `View` is what the wallet reads of the node: the active chain, the memory pool and the
  InstantSend locks. `mapTxSpends` is ordered by outpoint, so the spenders of one
  transaction stand together. The two loops take the least transaction of their set, and
  have a turn for each wallet transaction; a failed assertion is `none`. Balances cached in
  the transactions, the wallet file and the metadata of equal transactions are left out.
-/
import Mathlib.Data.List.TakeWhile
import Mathlib.Data.Prod.Lex
import Zumy.Lib.Multimap
import Zumy.Lib.Worklist
import Zumy.Primitives

namespace Zumy.Ledger

open Zumy.Lib

/-- `ABANDON_HASH`: the block of an abandoned transaction. -/
def abandonHash : Uint256 := 1

/-- `active` is the height of a block of `mapBlockIndex` that `chainActive` contains. -/
structure View where
  height : Nat
  active : Uint256 → Option Nat
  mempool : Uint256 → Bool
  isLockedInstantSendTransaction : Uint256 → Bool
  nInstantSendDepth : Nat
  active_le : ∀ b h, active b = some h → h ≤ height
  /-- No block has one of the two reserved hashes. -/
  active_unset : ∀ b, b = 0 ∨ b = abandonHash → active b = none

/-- An `nIndex` of -1 means that `hashBlock` is the earliest block known to conflict with the transaction. -/
structure CWalletTx extends CTransaction where
  hashBlock : Uint256
  nIndex : Int
  deriving DecidableEq

namespace CWalletTx

def hashUnset (wtx : CWalletTx) : Bool := wtx.hashBlock == 0 || wtx.hashBlock == abandonHash

def isAbandoned (wtx : CWalletTx) : Bool := wtx.hashBlock == abandonHash

section
variable (v : View) (wtx : CWalletTx)

def inMempool : Bool := v.mempool wtx.hash

/-- The last lines of `GetDepthInMainChain`. -/
def withInstantSend (enableIS : Bool) (nResult : Int) : Int :=
  if enableIS && decide (nResult < 10) && v.isLockedInstantSendTransaction wtx.hash then v.nInstantSendDepth + nResult
  else nResult

def getDepthInMainChain (enableIS : Bool) : Int :=
  if wtx.hashUnset then wtx.withInstantSend v enableIS 0
  else
    match v.active wtx.hashBlock with
    | none => wtx.withInstantSend v enableIS 0
    | some nHeight =>
      let nResult : Int := (if wtx.nIndex = -1 then -1 else 1) * ((v.height : Int) - nHeight + 1)
      if nResult = 0 && !v.mempool wtx.hash then -1 -- not in chain, not in mempool
      else wtx.withInstantSend v enableIS nResult

end

end CWalletTx

def spendKey (o : COutPoint) : Uint256 ×ₗ Nat := toLex (o.hash, o.n)

structure CWallet where
  mapWallet : Map Uint256 CWalletTx
  /-- `mapTxSpends`: the outpoints in order, each with the wallet transactions that spend it. -/
  mapTxSpends : Multimap (Uint256 ×ₗ Nat) Uint256
  fAnonymizableTallyCached : Bool
  fAnonymizableTallyCachedNonDenom : Bool

namespace CWallet

section
variable (v : View) (w : CWallet)

def isSpent (hash : Uint256) (n : Nat) : Bool :=
  (w.mapTxSpends.filter fun e => e.1 = spendKey ⟨hash, n⟩).any fun e =>
    (w.mapWallet[e.2]?).any fun wtx =>
      let depth := wtx.getDepthInMainChain v true
      decide (0 < depth) || (depth == 0 && !wtx.isAbandoned)

def addToSpends (wtx : CWalletTx) : CWallet :=
  if wtx.isCoinBase then w -- Coinbases don't spend anything!
  else { w with mapTxSpends := wtx.vin.foldl (fun m txin => Multimap.insert m (spendKey txin.prevout, wtx.hash)) w.mapTxSpends }

/-- The scan of `mapTxSpends` from the first outpoint of `start`, as long as it meets outpoints of `now`. -/
def spendersFrom (start now : Uint256) : List Uint256 :=
  ((w.mapTxSpends.dropWhile fun e => e.1 < spendKey ⟨start, 0⟩).takeWhile fun e => (ofLex e.1).1 = now).map (·.2)

def clearTallies : CWallet := { w with fAnonymizableTallyCached := false, fAnonymizableTallyCachedNonDenom := false }

/-- A turn of the loop of `AbandonTransaction`. -/
def abandonVisit (hashTx : Uint256) (now : Uint256) : Option (CWallet × Finset Uint256) :=
  (w.mapWallet[now]?).bind fun wtx =>
  let currentconfirm := wtx.getDepthInMainChain v true
  -- If the orig tx was not in block, none of its spends can be
  if 0 < currentconfirm then none
  else if currentconfirm == 0 && !wtx.isAbandoned then
    -- If the orig tx was not in block/mempool, none of its spends can be in mempool
    if wtx.inMempool v then none
    else
      some ({ w with mapWallet := w.mapWallet.insert now { wtx with nIndex := -1, hashBlock := abandonHash } },
        (w.spendersFrom hashTx now).toFinset)
  else some (w, ∅)

def abandonTransaction (hashTx : Uint256) : Option (CWallet × Bool) :=
  (w.mapWallet[hashTx]?).bind fun origtx =>
  -- Can't mark abandoned if confirmed or in mempool
  if decide (0 < origtx.getDepthInMainChain v true) || origtx.inMempool v then some (w, false)
  else
    (sweep (fun w now => abandonVisit v w hashTx now) w.mapWallet.size w {hashTx} ∅).map fun w => (w.clearTallies, true)

def conflictConfirms (hashBlock : Uint256) : Int :=
  match v.active hashBlock with
  | none => 0
  | some nHeight => -((v.height : Int) - nHeight + 1)

/-- A turn of the loop of `MarkConflicted`. -/
def conflictVisit (hashBlock : Uint256) (now : Uint256) : Option (CWallet × Finset Uint256) :=
  (w.mapWallet[now]?).bind fun wtx =>
  let currentconfirm := wtx.getDepthInMainChain v true
  if conflictConfirms v hashBlock < currentconfirm then
    -- Block is 'more conflicted' than current confirm; update.
    some ({ w with mapWallet := w.mapWallet.insert now { wtx with nIndex := -1, hashBlock := hashBlock } },
      (w.spendersFrom now now).toFinset)
  else some (w, ∅)

def markConflicted (hashBlock hashTx : Uint256) : Option CWallet :=
  if 0 ≤ conflictConfirms v hashBlock then some w
  else (sweep (fun w now => conflictVisit v w hashBlock now) w.mapWallet.size w {hashTx} ∅).map clearTallies

end

/-! ## The index of spenders -/

/-- The transaction `x` spends an output of `p`. -/
def Spends (w : CWallet) (p x : Uint256) : Prop := ∃ n, (spendKey ⟨p, n⟩, x) ∈ w.mapTxSpends

/-- What `AddToWallet` and `AddToSpends` keep: a transaction stands under its hash, and the spenders are the wallet's. -/
structure Linked (w : CWallet) : Prop where
  hash : ∀ (k : Uint256) (wtx : CWalletTx), w.mapWallet[k]? = some wtx → wtx.hash = k
  sorted : w.mapTxSpends.Sorted
  spender : ∀ e ∈ w.mapTxSpends, ∃ wtx, w.mapWallet[e.2]? = some wtx

variable {w : CWallet} {p x now start : Uint256}

theorem Linked.of_spends (h : Linked w) (hx : w.Spends p x) : ∃ wtx, w.mapWallet[x]? = some wtx := by
  obtain ⟨n, hn⟩ := hx
  exact h.spender _ hn

theorem le_spendKey {e : Uint256 ×ₗ Nat} : spendKey ⟨now, 0⟩ ≤ e ↔ now ≤ (ofLex e).1 := by
  rw [spendKey, Prod.Lex.le_iff, ofLex_toLex]
  constructor
  · intro h
    obtain hlt | ⟨heq, -⟩ := h
    · exact hlt.le
    · exact heq.le
  · intro h
    obtain hlt | heq := h.lt_or_eq
    · exact .inl hlt
    · exact .inr ⟨heq, Nat.zero_le _⟩

theorem takeWhile_eq_filter {m : Multimap (Uint256 ×ₗ Nat) Uint256} (hm : m.Sorted)
    (hle : ∀ e ∈ m, now ≤ (ofLex e.1).1) :
    (m.takeWhile fun e => (ofLex e.1).1 = now) = m.filter fun e => (ofLex e.1).1 = now := by
  induction m with
  | nil => rfl
  | cons e m ih =>
    obtain ⟨he, hm⟩ := List.pairwise_cons.1 hm
    obtain ⟨hlee, hle⟩ := List.forall_mem_cons.1 hle
    rw [List.takeWhile_cons, List.filter_cons]
    by_cases hnow : (ofLex e.1).1 = now
    · simp only [hnow, decide_true, if_true]
      rw [ih hm hle]
    · have hlater : ∀ f ∈ m, ¬ (ofLex f.1).1 = now := by
        intro f hf heq
        have hef : (ofLex e.1).1 ≤ (ofLex f.1).1 := (Prod.Lex.le_iff.1 (he f hf)).elim le_of_lt fun h => h.1.le
        exact hnow (le_antisymm (hef.trans heq.le) hlee)
      simp only [hnow, decide_false, Bool.false_eq_true, if_false]
      rw [eq_comm, List.filter_eq_nil_iff]
      intro f hf
      simpa using hlater f hf

theorem dropWhile_takeWhile_eq_filter {m : Multimap (Uint256 ×ₗ Nat) Uint256} (hm : m.Sorted) :
    ((m.dropWhile fun e => e.1 < spendKey ⟨now, 0⟩).takeWhile fun e => (ofLex e.1).1 = now) =
      m.filter fun e => (ofLex e.1).1 = now := by
  induction m with
  | nil => rfl
  | cons e m ih =>
    obtain ⟨he, hm'⟩ := List.pairwise_cons.1 hm
    by_cases hlt : e.1 < spendKey ⟨now, 0⟩
    · have hnow : ¬ (ofLex e.1).1 = now := fun h => absurd hlt (not_lt.2 (le_spendKey.2 h.ge))
      rw [List.dropWhile_cons_of_pos (by simpa using hlt), ih hm', List.filter_cons_of_neg (by simpa using hnow)]
    · rw [List.dropWhile_cons_of_neg (by simpa using hlt)]
      refine takeWhile_eq_filter hm fun f hf => le_spendKey.1 ?_
      obtain rfl | hf := List.mem_cons.1 hf
      · exact not_lt.1 hlt
      · exact (not_lt.1 hlt).trans (he f hf)

/-- A scan that starts at the transaction's own first outpoint finds all that spend it. -/
theorem mem_spendersFrom (hw : w.mapTxSpends.Sorted) : x ∈ w.spendersFrom now now ↔ w.Spends now x := by
  rw [spendersFrom, dropWhile_takeWhile_eq_filter hw]
  simp only [List.mem_map, List.mem_filter, decide_eq_true_eq]
  constructor
  · rintro ⟨⟨o, y⟩, ⟨hmem, hnow⟩, rfl⟩
    refine ⟨(ofLex o).2, ?_⟩
    have ho : spendKey ⟨now, (ofLex o).2⟩ = o := by
      rw [← hnow]
      rfl
    rwa [ho]
  · intro h
    obtain ⟨n, hn⟩ := h
    exact ⟨_, ⟨hn, rfl⟩, rfl⟩

/-- A scan that starts at another transaction's first outpoint stops at once if that one is spent at all. -/
theorem spendersFrom_other (hw : w.mapTxSpends.Sorted) (hne : now ≠ start) (hx : w.Spends start x) :
    w.spendersFrom start now = [] := by
  obtain ⟨n, hn⟩ := hx
  have hstays : (spendKey ⟨start, n⟩, x) ∈ w.mapTxSpends.dropWhile fun e => e.1 < spendKey ⟨start, 0⟩ := by
    have hsplit := List.takeWhile_append_dropWhile (p := fun e => decide (e.1 < spendKey ⟨start, 0⟩)) (l := w.mapTxSpends)
    rw [← hsplit, List.mem_append] at hn
    obtain hn | hn := hn
    · have hdec := List.mem_takeWhile_imp hn
      have hlt : spendKey ⟨start, n⟩ < spendKey ⟨start, 0⟩ := of_decide_eq_true hdec
      exact absurd hlt (not_lt.2 (le_spendKey.2 (le_refl start)))
    · exact hn
  have hsorted : (w.mapTxSpends.dropWhile fun e => e.1 < spendKey ⟨start, 0⟩).Pairwise fun a b => a.1 ≤ b.1 :=
    hw.sublist (List.dropWhile_sublist _)
  have hhead := List.head?_dropWhile_not (fun e : (Uint256 ×ₗ Nat) × Uint256 => decide (e.1 < spendKey ⟨start, 0⟩)) w.mapTxSpends
  unfold spendersFrom
  generalize (w.mapTxSpends.dropWhile fun e => e.1 < spendKey ⟨start, 0⟩) = rest at hstays hsorted hhead
  cases rest with
  | nil => cases hstays
  | cons e rest =>
    have hge : start ≤ (ofLex e.1).1 := le_spendKey.1 (by simpa using hhead)
    have hle : (ofLex e.1).1 ≤ start := by
      obtain heq | hmem := List.mem_cons.1 hstays
      · rw [← heq]
        exact le_rfl
      · have hlex := (List.pairwise_cons.1 hsorted).1 _ hmem
        exact (Prod.Lex.le_iff.1 hlex).elim le_of_lt fun h => h.1.le
    have hstop : ¬ (ofLex e.1).1 = now := fun h => hne (h.symm.trans (le_antisymm hle hge))
    rw [List.takeWhile_cons_of_neg (by simpa using hstop), List.map_nil]

end CWallet

end Zumy.Ledger
