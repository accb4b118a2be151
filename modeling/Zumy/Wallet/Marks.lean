/-
  Zumy.Wallet.Marks — which transactions `AbandonTransaction` and `MarkConflicted` mark, and
  whether the marks stay closed under spending (`wallet/wallet.cpp`).

  A mark is a transaction's `hashBlock` and `nIndex`; its depth is that of
  `GetDepthInMainChain` without InstantSend (`markDepth`), while both loops decide by the
  depth with InstantSend (`depth`). The marks are `Closed` when what spends an abandoned
  transaction is abandoned or conflicted, and what spends a conflicted one is conflicted at
  least as deeply.
-/
import Zumy.Wallet.Ledger

namespace Zumy.Ledger

open Zumy.Lib

/-! ## Depths and marks -/

namespace CWalletTx

variable {v : View} {wtx : CWalletTx}

theorem le_withInstantSend (enableIS : Bool) (n : Int) : n ≤ wtx.withInstantSend v enableIS n := by
  unfold withInstantSend
  split
  · have hdepth : (0 : Int) ≤ v.nInstantSendDepth := Int.natCast_nonneg _
    omega
  · exact le_rfl

theorem withInstantSend_false (n : Int) : wtx.withInstantSend v false n = n := rfl

theorem markDepth_le : wtx.getDepthInMainChain v false ≤ wtx.getDepthInMainChain v true := by
  unfold getDepthInMainChain
  split
  · exact le_withInstantSend true 0
  · split
    · exact le_withInstantSend true 0
    · rename_i nHeight _
      dsimp only
      generalize (if wtx.nIndex = -1 then (-1 : Int) else 1) * ((v.height : Int) - nHeight + 1) = n
      by_cases hgone : (decide (n = 0) && !v.mempool wtx.hash) = true
      · rw [if_pos hgone, if_pos hgone]
      · rw [if_neg hgone, if_neg hgone]
        exact le_withInstantSend true n

theorem getDepthInMainChain_abandoned :
    getDepthInMainChain v { wtx with nIndex := -1, hashBlock := abandonHash } false = 0 := by
  rw [getDepthInMainChain, if_pos]
  · rfl
  · simp [hashUnset]

theorem isAbandoned_abandoned : isAbandoned { wtx with nIndex := -1, hashBlock := abandonHash } = true := by
  simp [isAbandoned]

theorem conflictConfirms_neg {hashBlock : Uint256} {h : Nat} (hb : v.active hashBlock = some h) :
    CWallet.conflictConfirms v hashBlock < 0 := by
  have hle := v.active_le hashBlock h hb
  simp only [CWallet.conflictConfirms, hb]
  omega

theorem getDepthInMainChain_conflicted {hashBlock : Uint256} {h : Nat} (hb : v.active hashBlock = some h) :
    getDepthInMainChain v { wtx with nIndex := -1, hashBlock := hashBlock } false = CWallet.conflictConfirms v hashBlock := by
  have hle := v.active_le hashBlock h hb
  have hset : hashUnset { wtx with nIndex := -1, hashBlock := hashBlock } = false := by
    by_contra hunset
    rw [Bool.not_eq_false, hashUnset, Bool.or_eq_true, beq_iff_eq, beq_iff_eq] at hunset
    rw [v.active_unset hashBlock hunset] at hb
    cases hb
  have hne : (-1 : Int) * ((v.height : Int) - h + 1) ≠ 0 := by omega
  rw [getDepthInMainChain, hset]
  simp only [hb, CWallet.conflictConfirms, Bool.false_eq_true, if_false, if_true, hne, decide_false, Bool.false_and,
    withInstantSend_false]
  omega

theorem isAbandoned_conflicted {hashBlock : Uint256} {h : Nat} (hb : v.active hashBlock = some h) :
    isAbandoned { wtx with nIndex := -1, hashBlock := hashBlock } = false := by
  by_contra hab
  have heq : hashBlock = abandonHash := by simpa [isAbandoned] using hab
  rw [v.active_unset hashBlock (.inr heq)] at hb
  cases hb

end CWalletTx

namespace CWallet

section
variable (v : View) (w : CWallet)

def markDepth (x : Uint256) : Int := (w.mapWallet[x]?).elim 0 fun wtx => wtx.getDepthInMainChain v false

def depth (x : Uint256) : Int := (w.mapWallet[x]?).elim 0 fun wtx => wtx.getDepthInMainChain v true

def abandoned (x : Uint256) : Bool := (w.mapWallet[x]?).any CWalletTx.isAbandoned

structure Closed : Prop where
  abandoned : ∀ p x, w.Spends p x → w.abandoned p = true → w.abandoned x = true ∨ w.markDepth v x < 0
  conflicted : ∀ p x, w.Spends p x → w.markDepth v p < 0 → w.markDepth v x ≤ w.markDepth v p

def InChainOrPool (x : Uint256) : Prop := 0 < w.markDepth v x ∨ v.mempool x = true

/-- A transaction in the main chain or the memory pool spends only wallet transactions that are there too. -/
def Supported : Prop :=
  ∀ p x, w.Spends p x → w.mapWallet.contains p = true → w.InChainOrPool v x → w.InChainOrPool v p

/-- The transaction reaches `x` through `mapTxSpends`. -/
def Descends : Uint256 → Uint256 → Prop := Relation.ReflTransGen w.Spends

/-- The call comes back, and where it returned true the marks are closed again, all that the transaction reaches is
    abandoned unless it was conflicted, and nothing else is marked. -/
def AbandonRestores (t : Uint256) : Prop :=
  ∃ w' marked, w.abandonTransaction v t = some (w', marked) ∧
    (marked = true → w'.Closed v ∧ (∀ x, w.Descends t x → w'.abandoned x = true ∨ w.markDepth v x < 0) ∧
      ∀ x : Uint256, ¬ w.Descends t x → w'.mapWallet[x]? = w.mapWallet[x]?)

/-- The same for a conflict with the block `b`. -/
def ConflictRestores (b t : Uint256) : Prop :=
  ∃ w', w.markConflicted v b t = some w' ∧ w'.Closed v ∧
    (∀ x, w.Descends t x → w'.markDepth v x ≤ conflictConfirms v b ∨ w.markDepth v x < 0) ∧
    ∀ x : Uint256, ¬ w.Descends t x → w'.mapWallet[x]? = w.mapWallet[x]?

/-- The loop of `AbandonTransaction` marks it if it gets there. -/
def Due (x : Uint256) : Prop := w.depth v x = 0 ∧ w.abandoned x = false

/-- What has to hold of the transactions near `t` when it is abandoned. -/
structure AbandonReaches (t : Uint256) : Prop where
  /-- No assertion fails on a spender of `t`. -/
  unconfirmed : ∀ c, w.Spends t c → w.depth v c ≤ 0
  /-- No grandchild needs a mark. -/
  grandchild : ∀ c x, w.Spends t c → w.Due v c → w.Spends c x →
    x = t ∨ w.Spends t x ∨ w.abandoned x = true ∨ w.markDepth v x < 0
  /-- None that is marked was conflicted, its depth made up by InstantSend, and has a parent that stays conflicted. -/
  parent : ∀ p x, x = t ∨ w.Spends t x → w.Due v x → w.Spends p x → w.markDepth v p < 0 →
    (p = t ∨ w.Spends t p) ∧ w.Due v p

/-- `MarkConflicted` marks it: it gets there through transactions that it marks. -/
def Remarks (b t x : Uint256) : Prop :=
  Relation.ReflTransGen (fun a c => conflictConfirms v b < w.depth v a ∧ w.Spends a c) t x ∧
    conflictConfirms v b < w.depth v x

/-- None that is marked, InstantSend having made up for its depth, has a parent that stays conflicted more deeply. -/
def ConflictReaches (b t : Uint256) : Prop :=
  ∀ p x, w.Remarks v b t x → ¬ w.Remarks v b t p → w.Spends p x → w.markDepth v p < 0 →
    conflictConfirms v b ≤ w.markDepth v p

end

variable {v : View} {w w' : CWallet} {b t p x y : Uint256}

theorem markDepth_le_depth : w.markDepth v x ≤ w.depth v x := by
  unfold markDepth depth
  cases w.mapWallet[x]? with
  | none => exact le_rfl
  | some wtx => exact CWalletTx.markDepth_le

theorem Closed.descends (hc : w.Closed v) (hp : w.markDepth v p < 0) (h : w.Descends p x) :
    w.markDepth v x ≤ w.markDepth v p := by
  induction h with
  | refl => exact le_rfl
  | tail _ hstep ih => exact (hc.conflicted _ _ hstep (lt_of_le_of_lt ih hp)).trans ih

/-! ## The loops -/

/-- `s` is the wallet after the nodes of `V` were visited: those that were due have the new mark. -/
structure MarkedBy (w : CWallet) (due : Uint256 → Bool) (mark : CWalletTx → CWalletTx) (V : Finset Uint256) (s : CWallet) :
    Prop where
  spends : s.mapTxSpends = w.mapTxSpends
  txs : ∀ x : Uint256, s.mapWallet[x]? = (w.mapWallet[x]?).map fun wtx => if x ∈ V ∧ due x = true then mark wtx else wtx

section
variable {due : Uint256 → Bool} {mark : CWalletTx → CWalletTx} {V : Finset Uint256} {s : CWallet} {k : Uint256}
  {wtx : CWalletTx}

theorem markedBy_empty : MarkedBy w due mark ∅ w where
  spends := rfl
  txs x := by simp

theorem MarkedBy.lookup (h : MarkedBy w due mark V s) (hk : k ∉ V) : s.mapWallet[k]? = w.mapWallet[k]? := by
  rw [h.txs k]
  simp [hk]

theorem MarkedBy.put (h : MarkedBy w due mark V s) (hk : w.mapWallet[k]? = some wtx) (hdue : due k = true) :
    MarkedBy w due mark (insert k V) { s with mapWallet := s.mapWallet.insert k (mark wtx) } where
  spends := h.spends
  txs x := by
    rw [lookup_insert]
    by_cases hx : x = k
    · subst hx
      rw [if_pos rfl, hk, Option.map_some, if_pos ⟨Finset.mem_insert_self _ _, hdue⟩]
    · rw [if_neg hx, h.txs x]
      simp [hx]

theorem MarkedBy.skip (h : MarkedBy w due mark V s) (hdue : due k = false) : MarkedBy w due mark (insert k V) s where
  spends := h.spends
  txs x := by
    rw [h.txs x]
    by_cases hx : x = k
    · subst hx
      simp [hdue]
    · simp [hx]

theorem MarkedBy.clearTallies (h : MarkedBy w due mark V s) : MarkedBy w due mark V s.clearTallies := ⟨h.spends, h.txs⟩

theorem MarkedBy.spends_iff (h : MarkedBy w due mark V s) : s.Spends p x ↔ w.Spends p x := by
  rw [Spends, Spends, h.spends]

theorem MarkedBy.spendersFrom (h : MarkedBy w due mark V s) (start now : Uint256) :
    s.spendersFrom start now = w.spendersFrom start now := by
  rw [CWallet.spendersFrom, CWallet.spendersFrom, h.spends]

theorem MarkedBy.abandoned_of_not (h : MarkedBy w due mark V s) (hx : ¬ (x ∈ V ∧ due x = true)) :
    s.abandoned x = w.abandoned x := by
  rw [abandoned, abandoned, h.txs x]
  simp [hx]

theorem MarkedBy.markDepth_of_not (h : MarkedBy w due mark V s) (hx : ¬ (x ∈ V ∧ due x = true)) :
    s.markDepth v x = w.markDepth v x := by
  rw [markDepth, markDepth, h.txs x]
  simp [hx]

end

/-- What a loop stages at `k`: the spenders its scan finds, where `k` is due. -/
def found (w : CWallet) (due : Uint256 → Bool) (start : Uint256 → Uint256) (k : Uint256) : Finset Uint256 :=
  if due k then (w.spendersFrom (start k) k).toFinset else ∅

def ids (w : CWallet) : Finset Uint256 := w.mapWallet.keys.toFinset

theorem mem_ids : x ∈ w.ids ↔ ∃ wtx, w.mapWallet[x]? = some wtx := by
  rw [ids, List.mem_toFinset, Std.TreeMap.mem_keys, Std.TreeMap.mem_iff_isSome_getElem?, Option.isSome_iff_exists]

theorem card_ids : w.ids.card = w.mapWallet.size := card_keys_toFinset

theorem found_subset (hw : w.Linked) {due : Uint256 → Bool} {start : Uint256 → Uint256} (k : Uint256) :
    w.found due start k ⊆ w.ids := by
  unfold found
  split
  · intro x hx
    rw [List.mem_toFinset, CWallet.spendersFrom, List.mem_map] at hx
    obtain ⟨e, he, rfl⟩ := hx
    have hmem : e ∈ w.mapTxSpends := (List.dropWhile_sublist _).mem ((List.takeWhile_sublist _).mem he)
    exact mem_ids.2 (hw.spender e hmem)
  · exact Finset.empty_subset _

theorem searching_start (ht : t ∈ w.ids) (next : Uint256 → Finset Uint256) : Searching next w.ids {t} ∅ where
  staged := by simpa using ht
  fresh := Finset.disjoint_empty_right _
  frontier x hx := absurd hx (Finset.notMem_empty x)

/-- `Due`, as the loop decides it. -/
def abandonDue (v : View) (w : CWallet) (x : Uint256) : Bool := w.depth v x == 0 && !w.abandoned x

theorem abandonDue_iff : w.abandonDue v x = true ↔ w.Due v x := by
  rw [abandonDue, Due, Bool.and_eq_true, beq_iff_eq, Bool.not_eq_true']

/-- The assertions of the loop hold at `x`. -/
def AbandonOk (v : View) (w : CWallet) (x : Uint256) : Prop := w.depth v x ≤ 0 ∧ (w.Due v x → v.mempool x = false)

theorem abandon_sweeps (hw : w.Linked) (v : View) (t : Uint256) :
    Sweeps (fun s now => abandonVisit v s t now) (w.found (w.abandonDue v) fun _ => t) (w.AbandonOk v) w.ids
      (MarkedBy w (w.abandonDue v) fun wtx => { wtx with nIndex := -1, hashBlock := abandonHash }) where
  closed k _ := found_subset hw k
  pass V s k hrep hk hkV hok := by
    obtain ⟨wtx, hwtx⟩ := mem_ids.1 hk
    have hdepth : w.depth v k = wtx.getDepthInMainChain v true := by rw [depth, hwtx, Option.elim_some]
    have hab : w.abandoned k = wtx.isAbandoned := by rw [abandoned, hwtx, Option.any_some]
    obtain ⟨hle, hpool⟩ := hok
    rw [hdepth] at hle
    unfold abandonVisit
    rw [hrep.lookup hkV, hwtx, Option.bind_some]
    dsimp only
    rw [if_neg (not_lt.2 hle), hrep.spendersFrom]
    cases hdue : w.abandonDue v k with
    | true =>
      have hdue' : (wtx.getDepthInMainChain v true == 0 && !wtx.isAbandoned) = true := by rw [← hdepth, ← hab]; exact hdue
      have hout : wtx.inMempool v = false := by
        rw [CWalletTx.inMempool, hw.hash k wtx hwtx]
        exact hpool (abandonDue_iff.1 hdue)
      rw [if_pos hdue', hout, if_neg Bool.false_ne_true, found, if_pos hdue]
      exact ⟨_, rfl, hrep.put hwtx hdue⟩
    | false =>
      have hdue' : (wtx.getDepthInMainChain v true == 0 && !wtx.isAbandoned) = false := by rw [← hdepth, ← hab]; exact hdue
      rw [hdue', if_neg Bool.false_ne_true, found, hdue, if_neg Bool.false_ne_true]
      exact ⟨s, rfl, hrep.skip hdue⟩
  fail V s k hrep hk hkV hok := by
    obtain ⟨wtx, hwtx⟩ := mem_ids.1 hk
    have hdepth : w.depth v k = wtx.getDepthInMainChain v true := by rw [depth, hwtx, Option.elim_some]
    have hab : w.abandoned k = wtx.isAbandoned := by rw [abandoned, hwtx, Option.any_some]
    unfold abandonVisit
    rw [hrep.lookup hkV, hwtx, Option.bind_some]
    dsimp only
    by_cases hpos : 0 < wtx.getDepthInMainChain v true
    · rw [if_pos hpos]
    · rw [if_neg hpos]
      have hbad : ¬ (w.Due v k → v.mempool k = false) := fun h => hok ⟨by rw [hdepth]; exact not_lt.1 hpos, h⟩
      obtain ⟨hdue, hpool⟩ := Classical.not_imp.1 hbad
      have hdue' : (wtx.getDepthInMainChain v true == 0 && !wtx.isAbandoned) = true := by
        rw [← hdepth, ← hab]
        exact abandonDue_iff.2 hdue
      rw [if_pos hdue', if_pos]
      rw [CWalletTx.inMempool, hw.hash k wtx hwtx]
      exact Bool.eq_true_of_not_eq_false hpool

theorem conflict_sweeps (hw : w.Linked) (v : View) (b : Uint256) :
    Sweeps (fun s now => conflictVisit v s b now) (w.found (fun x => conflictConfirms v b < w.depth v x) id) (fun _ => True)
      w.ids (MarkedBy w (fun x => conflictConfirms v b < w.depth v x)
        fun wtx => { wtx with nIndex := -1, hashBlock := b }) where
  closed k _ := found_subset hw k
  pass V s k hrep hk hkV _ := by
    obtain ⟨wtx, hwtx⟩ := mem_ids.1 hk
    have hdepth : w.depth v k = wtx.getDepthInMainChain v true := by rw [depth, hwtx, Option.elim_some]
    unfold conflictVisit
    rw [hrep.lookup hkV, hwtx, Option.bind_some]
    dsimp only
    rw [← hdepth, hrep.spendersFrom]
    by_cases hdue : conflictConfirms v b < w.depth v k
    · rw [if_pos hdue, found, if_pos (decide_eq_true hdue)]
      exact ⟨_, rfl, hrep.put hwtx (decide_eq_true hdue)⟩
    · rw [if_neg hdue, found, if_neg (by simpa using hdue)]
      exact ⟨s, rfl, hrep.skip (decide_eq_false hdue)⟩
  fail V s k hrep hk hkV hok := absurd trivial hok

theorem mem_found_id (hw : w.Linked) {due : Uint256 → Bool} : y ∈ w.found due id x ↔ due x = true ∧ w.Spends x y := by
  unfold found
  split
  · next hdue => rw [List.mem_toFinset, id, mem_spendersFrom hw.sorted, and_iff_right hdue]
  · next hdue => simp [hdue]

/-- `MarkConflicted` ends, and marks what it reaches through transactions that it marks. -/
theorem conflict_run (hw : w.Linked) (ht : t ∈ w.ids) {h : Nat} (hb : v.active b = some h) :
    ∃ w' V, w.markConflicted v b t = some w' ∧
      MarkedBy w (fun x => conflictConfirms v b < w.depth v x) (fun wtx => { wtx with nIndex := -1, hashBlock := b }) V w' ∧
      ∀ x, x ∈ V ∧ decide (conflictConfirms v b < w.depth v x) = true ↔ w.Remarks v b t x := by
  have hneg : ¬ 0 ≤ conflictConfirms v b := not_le.2 (CWalletTx.conflictConfirms_neg hb)
  obtain ⟨w', hrun, hmarked⟩ := (conflict_sweeps hw v b).sweep_some (searching_start ht _)
    ((Finset.card_le_card Finset.sdiff_subset).trans card_ids.le) markedBy_empty fun _ _ _ => trivial
  refine ⟨w'.clearTallies, _, ?_, hmarked.clearTallies, fun x => ?_⟩
  · rw [markConflicted, if_neg hneg, hrun, Option.map_some]
  · have hstep : (fun a c => c ∈ w.found (fun x => conflictConfirms v b < w.depth v x) id a) =
        fun a c => conflictConfirms v b < w.depth v a ∧ w.Spends a c := by
      funext a c
      rw [mem_found_id hw, decide_eq_true_iff]
    rw [mem_explore (conflict_sweeps hw v b).closed (searching_start ht _) card_ids.le, decide_eq_true_iff]
    simp only [Finset.notMem_empty, Finset.mem_singleton, false_or, exists_eq_left, Reach, hstep, Remarks]

/-- What the loop of `AbandonTransaction` visits. -/
def AbandonVisits (v : View) (w : CWallet) (t x : Uint256) : Prop := x = t ∨ w.Due v t ∧ w.Spends t x

theorem reach_abandon_iff (hw : w.Linked) : Reach (w.found (w.abandonDue v) fun _ => t) t x ↔ w.AbandonVisits v t x := by
  constructor
  · intro hreach
    induction hreach with
    | refl => exact .inl rfl
    | @tail a c _ hstep ih =>
      unfold found at hstep
      split at hstep
      · next hdue =>
        rw [List.mem_toFinset] at hstep
        obtain rfl | ⟨hduet, hspends⟩ := ih
        · exact .inr ⟨abandonDue_iff.1 hdue, (mem_spendersFrom hw.sorted).1 hstep⟩
        · by_cases hat : a = t
          · subst hat
            exact .inr ⟨hduet, (mem_spendersFrom hw.sorted).1 hstep⟩
          · rw [spendersFrom_other hw.sorted hat hspends] at hstep
            cases hstep
      · exact absurd hstep (Finset.notMem_empty c)
  · intro hvisits
    obtain rfl | ⟨hdue, hspends⟩ := hvisits
    · exact .refl
    · refine .single ?_
      rw [found, if_pos (abandonDue_iff.2 hdue), List.mem_toFinset]
      exact (mem_spendersFrom hw.sorted).2 hspends

/-- Where the transaction is neither confirmed nor in the memory pool, its loop runs over what it visits. -/
theorem abandon_run (hw : w.Linked) (ht : t ∈ w.ids) (hle : w.depth v t ≤ 0) (hpool : v.mempool t = false) :
    ((∀ x, w.AbandonVisits v t x → w.AbandonOk v x) → ∃ w' V, w.abandonTransaction v t = some (w', true) ∧
      MarkedBy w (w.abandonDue v) (fun wtx => { wtx with nIndex := -1, hashBlock := abandonHash }) V w' ∧
      ∀ x, x ∈ V ↔ w.AbandonVisits v t x) ∧
    ((∃ x, w.AbandonVisits v t x ∧ ¬ w.AbandonOk v x) → w.abandonTransaction v t = none) := by
  obtain ⟨wtx, hwtx⟩ := mem_ids.1 ht
  have hdepth : w.depth v t = wtx.getDepthInMainChain v true := by rw [depth, hwtx, Option.elim_some]
  have hout : wtx.inMempool v = false := by rw [CWalletTx.inMempool, hw.hash t wtx hwtx, hpool]
  have hopen : (decide (0 < wtx.getDepthInMainChain v true) || wtx.inMempool v) = false := by
    rw [hout, ← hdepth, Bool.or_false, decide_eq_false_iff_not]
    exact not_lt.2 hle
  have hcall : w.abandonTransaction v t =
      (sweep (fun s now => abandonVisit v s t now) w.mapWallet.size w {t} ∅).map fun w => (w.clearTallies, true) := by
    rw [abandonTransaction, hwtx, Option.bind_some, hopen, if_neg Bool.false_ne_true]
  have hvisited (x : Uint256) : x ∈ explore (w.found (w.abandonDue v) fun _ => t) w.mapWallet.size {t} ∅ ↔
      w.AbandonVisits v t x := by
    rw [mem_explore (abandon_sweeps hw v t).closed (searching_start ht _) card_ids.le, ← reach_abandon_iff hw]
    simp
  refine ⟨fun hok => ?_, fun hbad => ?_⟩
  · obtain ⟨w', hrun, hmarked⟩ := (abandon_sweeps hw v t).sweep_some (searching_start ht _)
      ((Finset.card_le_card Finset.sdiff_subset).trans card_ids.le) markedBy_empty fun y hy _ => hok y ((hvisited y).1 hy)
    exact ⟨w'.clearTallies, _, by rw [hcall, hrun, Option.map_some], hmarked.clearTallies, hvisited⟩
  · obtain ⟨x, hx, hnot⟩ := hbad
    have hnone := (abandon_sweeps hw v t).sweep_none (n := w.mapWallet.size) (searching_start ht _) markedBy_empty
      ⟨x, (hvisited x).2 hx, Finset.notMem_empty x, hnot⟩
    rw [hcall, hnone, Option.map_none]

/-! ## When the closure is restored -/

theorem Remarks.mem_ids (hw : w.Linked) (ht : t ∈ w.ids) (hx : w.Remarks v b t x) : x ∈ w.ids := by
  obtain ⟨hpath, -⟩ := hx
  cases hpath with
  | refl => exact ht
  | tail _ hstep => exact CWallet.mem_ids.2 (hw.of_spends hstep.2)

theorem Remarks.descends (hx : w.Remarks v b t x) : w.Descends t x := Relation.ReflTransGen.mono (fun _ _ h => h.2) _ _ hx.1

theorem conflict_restores_iff (hw : w.Linked) (hc : w.Closed v) (ht : t ∈ w.ids) {h : Nat} (hb : v.active b = some h) :
    w.ConflictRestores v b t ↔ w.ConflictReaches v b t := by
  have hneg := CWalletTx.conflictConfirms_neg hb
  obtain ⟨w', V, hrun, hmarked, hV⟩ := conflict_run hw ht hb
  have hput (x : Uint256) (hx : w.Remarks v b t x) : w'.markDepth v x = conflictConfirms v b ∧ w'.abandoned x = false := by
    obtain ⟨wtx, hwtx⟩ := CWallet.mem_ids.1 (hx.mem_ids hw ht)
    have hlookup : w'.mapWallet[x]? = some { wtx with nIndex := -1, hashBlock := b } := by
      rw [hmarked.txs x, hwtx, Option.map_some, if_pos ((hV x).2 hx)]
    rw [markDepth, abandoned, hlookup]
    exact ⟨CWalletTx.getDepthInMainChain_conflicted hb, CWalletTx.isAbandoned_conflicted hb⟩
  have hkeep (x : Uint256) (hx : ¬ w.Remarks v b t x) :
      w'.markDepth v x = w.markDepth v x ∧ w'.abandoned x = w.abandoned x := by
    have hnot := fun h => hx ((hV x).1 h)
    exact ⟨hmarked.markDepth_of_not hnot, hmarked.abandoned_of_not hnot⟩
  constructor
  · rintro ⟨w'', hrun', hclosed, -, -⟩ p x hx hp hspends hdepth
    rw [hrun] at hrun'
    cases hrun'
    have hle := hclosed.conflicted p x (hmarked.spends_iff.2 hspends)
    rw [(hput x hx).1, (hkeep p hp).1] at hle
    exact hle hdepth
  · intro hreaches
    have hclosed : w'.Closed v := by
      constructor
      · intro p x hspends hab
        rw [hmarked.spends_iff] at hspends
        have hp : ¬ w.Remarks v b t p := fun hp => by
          rw [(hput p hp).2] at hab
          cases hab
        rw [(hkeep p hp).2] at hab
        by_cases hx : w.Remarks v b t x
        · exact .inr (by rw [(hput x hx).1]; exact hneg)
        · rw [(hkeep x hx).1, (hkeep x hx).2]
          exact hc.abandoned p x hspends hab
      · intro p x hspends hdepth
        rw [hmarked.spends_iff] at hspends
        by_cases hp : w.Remarks v b t p
        · rw [(hput p hp).1]
          by_cases hx : w.Remarks v b t x
          · exact (hput x hx).1.le
          · rw [(hkeep x hx).1]
            refine markDepth_le_depth.trans (not_lt.1 fun hlt => hx ⟨?_, hlt⟩)
            exact hp.1.tail ⟨hp.2, hspends⟩
        · rw [(hkeep p hp).1] at hdepth ⊢
          by_cases hx : w.Remarks v b t x
          · rw [(hput x hx).1]
            exact hreaches p x hx hp hspends hdepth
          · rw [(hkeep x hx).1]
            exact hc.conflicted p x hspends hdepth
    have hstart : w'.markDepth v t ≤ conflictConfirms v b := by
      by_cases hx : w.Remarks v b t t
      · exact (hput t hx).1.le
      · rw [(hkeep t hx).1]
        exact markDepth_le_depth.trans (not_lt.1 fun hlt => hx ⟨.refl, hlt⟩)
    refine ⟨w', hrun, hclosed, fun x hx => .inl ?_, fun x hx => ?_⟩
    · have hx' : w'.Descends t x := Relation.ReflTransGen.mono (fun _ _ h => hmarked.spends_iff.2 h) _ _ hx
      exact (hclosed.descends (lt_of_le_of_lt hstart hneg) hx').trans hstart
    · rw [hmarked.txs x]
      have hnot : ¬ (x ∈ V ∧ decide (conflictConfirms v b < w.depth v x) = true) := fun h => hx ((hV x).1 h).descends
      simp only [hnot, if_false, Option.map_id']

/-- Where the marks are closed, what an abandoned or conflicted transaction reaches is abandoned or conflicted. -/
theorem Closed.settled (hc : w.Closed v) (hp : w.abandoned p = true ∨ w.markDepth v p < 0) (h : w.Descends p x) :
    w.abandoned x = true ∨ w.markDepth v x < 0 := by
  induction h with
  | refl => exact hp
  | tail _ hstep ih =>
    obtain hab | hneg := ih
    · exact hc.abandoned _ _ hstep hab
    · exact .inr (lt_of_le_of_lt (hc.conflicted _ _ hstep hneg) hneg)

/-- A spender of a transaction outside the chain and the pool passes the assertions unless InstantSend has confirmed it. -/
theorem abandonOk_of_spends (hs : w.Supported v) (ht : t ∈ w.ids) (hle : w.depth v t ≤ 0) (hpool : v.mempool t = false)
    (hspends : w.Spends t x) (hx : w.depth v x ≤ 0) : w.AbandonOk v x := by
  refine ⟨hx, fun _ => ?_⟩
  by_contra hin
  have hcontains : w.mapWallet.contains t = true := contains_iff.2 (CWallet.mem_ids.1 ht)
  obtain hpos | ht' := hs t x hspends hcontains (.inr (Bool.eq_true_of_not_eq_false hin))
  · exact absurd (lt_of_lt_of_le hpos (markDepth_le_depth.trans hle)) (lt_irrefl 0)
  · rw [hpool] at ht'
    cases ht'

/-- After a run that marks just the transaction's own spenders the closure holds if it did not have to reach further. -/
theorem abandon_marked_iff (hw : w.Linked) (hc : w.Closed v) (ht : t ∈ w.ids) {V : Finset Uint256}
    (hcall : w.abandonTransaction v t = some (w', true))
    (hmarked : MarkedBy w (w.abandonDue v) (fun wtx => { wtx with nIndex := -1, hashBlock := abandonHash }) V w')
    (hV : ∀ x, x ∈ V ↔ w.AbandonVisits v t x) (hdue : w.Due v t) (hchildren : ∀ c, w.Spends t c → w.depth v c ≤ 0) :
    w.AbandonRestores v t ↔ w.AbandonReaches v t := by
  have hvisits (x : Uint256) : w.AbandonVisits v t x ↔ x = t ∨ w.Spends t x := by
    rw [AbandonVisits, and_iff_right hdue]
  have hput (x : Uint256) (hx : x = t ∨ w.Spends t x) (hd : w.Due v x) :
      w'.markDepth v x = 0 ∧ w'.abandoned x = true := by
    have hmem : x ∈ w.ids := by
      obtain rfl | hspends := hx
      · exact ht
      · exact CWallet.mem_ids.2 (hw.of_spends hspends)
    obtain ⟨wtx, hwtx⟩ := CWallet.mem_ids.1 hmem
    have hlookup : w'.mapWallet[x]? = some { wtx with nIndex := -1, hashBlock := abandonHash } := by
      rw [hmarked.txs x, hwtx, Option.map_some, if_pos ⟨(hV x).2 ((hvisits x).2 hx), abandonDue_iff.2 hd⟩]
    rw [markDepth, abandoned, hlookup]
    exact ⟨CWalletTx.getDepthInMainChain_abandoned, CWalletTx.isAbandoned_abandoned⟩
  have hkeep (x : Uint256) (hx : ¬ ((x = t ∨ w.Spends t x) ∧ w.Due v x)) :
      w'.markDepth v x = w.markDepth v x ∧ w'.abandoned x = w.abandoned x := by
    have hnot : ¬ (x ∈ V ∧ w.abandonDue v x = true) := fun h =>
      hx ⟨(hvisits x).1 ((hV x).1 h.1), abandonDue_iff.1 h.2⟩
    exact ⟨hmarked.markDepth_of_not hnot, hmarked.abandoned_of_not hnot⟩
  constructor
  · rintro ⟨w'', marked, hcall', hrestored⟩
    rw [hcall] at hcall'
    cases hcall'
    obtain ⟨hclosed, -, -⟩ := hrestored rfl
    refine ⟨hchildren, fun c x hc hd hspends => ?_, fun p x hx hd hspends hneg => ?_⟩
    · by_cases hx : (x = t ∨ w.Spends t x) ∧ w.Due v x
      · exact hx.1.elim .inl fun h => .inr (.inl h)
      · have hafter := hclosed.abandoned c x (hmarked.spends_iff.2 hspends) (hput c (.inr hc) hd).2
        rw [(hkeep x hx).1, (hkeep x hx).2] at hafter
        exact .inr (.inr hafter)
    · by_contra hp
      have hafter := hclosed.conflicted p x (hmarked.spends_iff.2 hspends)
      rw [(hput x hx hd).1, (hkeep p hp).1] at hafter
      exact absurd (hafter hneg) (not_le.2 hneg)
  · intro hreaches
    have hclosed : w'.Closed v := by
      constructor
      · intro p x hspends hab
        rw [hmarked.spends_iff] at hspends
        by_cases hx : (x = t ∨ w.Spends t x) ∧ w.Due v x
        · exact .inl (hput x hx.1 hx.2).2
        · rw [(hkeep x hx).1, (hkeep x hx).2]
          -- a spender of t or of one of its spenders that is not marked now was marked before
          have hbefore (hx' : x = t ∨ w.Spends t x) : w.abandoned x = true ∨ w.markDepth v x < 0 := by
            have hle : w.depth v x ≤ 0 := by
              obtain rfl | hspends' := hx'
              · exact hdue.1.le
              · exact hchildren x hspends'
            by_cases hab' : w.abandoned x = true
            · exact .inl hab'
            · have hne : w.depth v x ≠ 0 := fun h => hx ⟨hx', h, by simpa using hab'⟩
              exact .inr (lt_of_le_of_lt markDepth_le_depth (lt_of_le_of_ne hle hne))
          by_cases hp : (p = t ∨ w.Spends t p) ∧ w.Due v p
          · obtain ⟨rfl | hchild, hd⟩ := hp
            · exact hbefore (.inr hspends)
            · obtain hx' | hx' | hdone := hreaches.grandchild p x hchild hd hspends
              · exact hbefore (.inl hx')
              · exact hbefore (.inr hx')
              · exact hdone
          · rw [(hkeep p hp).2] at hab
            exact hc.abandoned p x hspends hab
      · intro p x hspends hneg
        rw [hmarked.spends_iff] at hspends
        by_cases hp : (p = t ∨ w.Spends t p) ∧ w.Due v p
        · rw [(hput p hp.1 hp.2).1] at hneg
          exact absurd hneg (lt_irrefl 0)
        · rw [(hkeep p hp).1] at hneg ⊢
          by_cases hx : (x = t ∨ w.Spends t x) ∧ w.Due v x
          · exact absurd (hreaches.parent p x hx.1 hx.2 hspends hneg) hp
          · rw [(hkeep x hx).1]
            exact hc.conflicted p x hspends hneg
    refine ⟨w', true, hcall, fun _ => ⟨hclosed, fun x hx => ?_, fun x hx => ?_⟩⟩
    · induction hx with
      | refl => exact .inl (hput t (.inl rfl) hdue).2
      | @tail p x _ hstep ih =>
        by_cases hx : (x = t ∨ w.Spends t x) ∧ w.Due v x
        · exact .inl (hput x hx.1 hx.2).2
        · obtain hab | hneg := ih
          · have hafter := hclosed.abandoned p x (hmarked.spends_iff.2 hstep) hab
            rwa [(hkeep x hx).1] at hafter
          · exact .inr (lt_of_le_of_lt (hc.conflicted p x hstep hneg) hneg)
    · have hnot : ¬ (x ∈ V ∧ w.abandonDue v x = true) := fun h => by
        obtain rfl | hspends := (hvisits x).1 ((hV x).1 h.1)
        · exact hx .refl
        · exact hx (.single hspends)
      rw [hmarked.txs x]
      simp only [hnot, if_false, Option.map_id']

/-- A transaction that is not due and neither confirmed nor in the pool is settled, and its call marks nothing. -/
theorem abandon_settled (hc : w.Closed v) {V : Finset Uint256}
    (hcall : w.abandonTransaction v t = some (w', true))
    (hmarked : MarkedBy w (w.abandonDue v) (fun wtx => { wtx with nIndex := -1, hashBlock := abandonHash }) V w')
    (hV : ∀ x, x ∈ V ↔ w.AbandonVisits v t x) (hle : w.depth v t ≤ 0) (hdue : ¬ w.Due v t) : w.AbandonRestores v t := by
  have hnone (x : Uint256) : ¬ (x ∈ V ∧ w.abandonDue v x = true) := by
    rintro ⟨hx, hd⟩
    obtain rfl | ⟨hd', -⟩ := (hV x).1 hx
    · exact hdue (abandonDue_iff.1 hd)
    · exact hdue hd'
  have hkeep (x : Uint256) : w'.markDepth v x = w.markDepth v x ∧ w'.abandoned x = w.abandoned x :=
    ⟨hmarked.markDepth_of_not (hnone x), hmarked.abandoned_of_not (hnone x)⟩
  have hsettled : w.abandoned t = true ∨ w.markDepth v t < 0 := by
    by_cases hab : w.abandoned t = true
    · exact .inl hab
    · have hne : w.depth v t ≠ 0 := fun h => hdue ⟨h, by simpa using hab⟩
      exact .inr (lt_of_le_of_lt markDepth_le_depth (lt_of_le_of_ne hle hne))
  refine ⟨w', true, hcall, fun _ => ⟨⟨fun p x hspends => ?_, fun p x hspends => ?_⟩, fun x hx => ?_, fun x _ => ?_⟩⟩
  · rw [(hkeep p).2, (hkeep x).2, (hkeep x).1]
    exact hc.abandoned p x (hmarked.spends_iff.1 hspends)
  · rw [(hkeep p).1, (hkeep x).1]
    exact hc.conflicted p x (hmarked.spends_iff.1 hspends)
  · rw [(hkeep x).2]
    exact hc.settled hsettled hx
  · rw [hmarked.txs x]
    simp only [hnone x, if_false, Option.map_id']

theorem abandon_restores_iff (hw : w.Linked) (hc : w.Closed v) (hs : w.Supported v) (ht : t ∈ w.ids) :
    w.AbandonRestores v t ↔ (w.Due v t → v.mempool t = false → w.AbandonReaches v t) := by
  obtain ⟨wtx, hwtx⟩ := CWallet.mem_ids.1 ht
  have hdepth : w.depth v t = wtx.getDepthInMainChain v true := by rw [depth, hwtx, Option.elim_some]
  by_cases hout : w.depth v t ≤ 0 ∧ v.mempool t = false
  · obtain ⟨hle, hpool⟩ := hout
    obtain ⟨hrun, hfail⟩ := abandon_run hw ht hle hpool
    by_cases hbad : ∃ x, w.AbandonVisits v t x ∧ ¬ w.AbandonOk v x
    · refine iff_of_false ?_ fun hreaches => ?_
      · rintro ⟨w', marked, hcall, -⟩
        rw [hfail hbad] at hcall
        cases hcall
      · obtain ⟨x, hx, hnot⟩ := hbad
        obtain rfl | ⟨hdue, hspends⟩ := hx
        · exact hnot ⟨hle, fun _ => hpool⟩
        · exact hnot (abandonOk_of_spends hs ht hle hpool hspends ((hreaches hdue hpool).unconfirmed x hspends))
    · have hok : ∀ x, w.AbandonVisits v t x → w.AbandonOk v x := fun x hx => by
        by_contra hnot
        exact hbad ⟨x, hx, hnot⟩
      obtain ⟨w', V, hcall, hmarked, hV⟩ := hrun hok
      by_cases hdue : w.Due v t
      · rw [abandon_marked_iff hw hc ht hcall hmarked hV hdue fun c hspends => (hok c (.inr ⟨hdue, hspends⟩)).1]
        exact ⟨fun h _ _ => h, fun h => h hdue hpool⟩
      · exact iff_of_true (abandon_settled hc hcall hmarked hV hle hdue) fun hd => absurd hd hdue
  · have hcall : w.abandonTransaction v t = some (w, false) := by
      rw [abandonTransaction, hwtx, Option.bind_some, if_pos]
      rw [CWalletTx.inMempool, hw.hash t wtx hwtx, ← hdepth, Bool.or_eq_true, decide_eq_true_iff]
      by_cases hpool : v.mempool t = true
      · exact .inr hpool
      · exact .inl (not_le.1 fun hle => hout ⟨hle, by simpa using hpool⟩)
    refine iff_of_true ⟨w, false, hcall, fun h => by cases h⟩ fun hdue hpool => ?_
    exact absurd ⟨hdue.1.le, hpool⟩ hout

/-- When `AbandonTransaction` and `MarkConflicted`, the block on the active chain, restore the closure of the marks. -/
theorem marks_restored_iff (hw : w.Linked) (hc : w.Closed v) (hs : w.Supported v) (ht : w.mapWallet.contains t = true) :
    (w.AbandonRestores v t ↔ (w.Due v t → v.mempool t = false → w.AbandonReaches v t)) ∧
      ∀ b h, v.active b = some h → (w.ConflictRestores v b t ↔ w.ConflictReaches v b t) := by
  have hmem : t ∈ w.ids := mem_ids.2 (contains_iff.1 ht)
  exact ⟨abandon_restores_iff hw hc hs hmem, fun b h hb => conflict_restores_iff hw hc hmem hb⟩

/-! ## A chain of three -/

def spendingTx (hash prev : Uint256) : CWalletTx := ⟨⟨[⟨⟨prev, 0⟩, [], 0⟩], [⟨1, []⟩], hash⟩, 0, -1⟩

def chainOfThree : CWallet where
  mapWallet := ((∅ : Map Uint256 CWalletTx).insert 3 (spendingTx 3 2)).insert 4 (spendingTx 4 3) |>.insert 5 (spendingTx 5 4)
  mapTxSpends := [(spendKey ⟨2, 0⟩, 3), (spendKey ⟨3, 0⟩, 4), (spendKey ⟨4, 0⟩, 5)]
  fAnonymizableTallyCached := false
  fAnonymizableTallyCachedNonDenom := false

/-- Ten blocks, the ninth of which has the hash 100, and an empty memory pool. -/
def emptyPool : View where
  height := 10
  active b := if b = 100 then some 9 else none
  mempool _ := false
  isLockedInstantSendTransaction _ := false
  nInstantSendDepth := 5
  active_le b h hb := by
    split at hb
    · cases hb
      decide
    · cases hb
  active_unset b hb := by
    obtain rfl | rfl := hb <;> rfl

theorem chainOfThree_lookup {k : Uint256} {wtx : CWalletTx} (h : chainOfThree.mapWallet[k]? = some wtx) :
    wtx.hash = k ∧ wtx.hashBlock = 0 := by
  simp only [chainOfThree, lookup_insert] at h
  split at h
  · next hk =>
    cases h
    exact ⟨hk.symm, rfl⟩
  split at h
  · next hk =>
    cases h
    exact ⟨hk.symm, rfl⟩
  split at h
  · next hk =>
    cases h
    exact ⟨hk.symm, rfl⟩
  · simp at h

theorem chainOfThree_linked : chainOfThree.Linked where
  hash _ _ h := (chainOfThree_lookup h).1
  sorted := by
    unfold Multimap.Sorted
    decide
  spender e he := by
    simp only [chainOfThree, List.mem_cons, List.not_mem_nil, or_false] at he
    obtain rfl | rfl | rfl := he
    · exact ⟨spendingTx 3 2, rfl⟩
    · exact ⟨spendingTx 4 3, rfl⟩
    · exact ⟨spendingTx 5 4, rfl⟩

theorem chainOfThree_unmarked (x : Uint256) : chainOfThree.abandoned x = false ∧ chainOfThree.markDepth emptyPool x = 0 := by
  rw [abandoned, markDepth]
  cases hx : chainOfThree.mapWallet[x]? with
  | none => exact ⟨rfl, rfl⟩
  | some wtx =>
    have hblock := (chainOfThree_lookup hx).2
    simp [CWalletTx.isAbandoned, CWalletTx.getDepthInMainChain, CWalletTx.hashUnset, CWalletTx.withInstantSend, hblock,
      abandonHash]

theorem chainOfThree_closed : chainOfThree.Closed emptyPool where
  abandoned p _ _ h := by simp [(chainOfThree_unmarked p).1] at h
  conflicted p _ _ h := by simp [(chainOfThree_unmarked p).2] at h

theorem chainOfThree_supported : chainOfThree.Supported emptyPool := by
  intro p x _ _ hx
  obtain hpos | hpool := hx
  · rw [(chainOfThree_unmarked x).2] at hpos
    exact absurd hpos (lt_irrefl 0)
  · cases hpool

theorem marks_restored_sample :
    (chainOfThree.AbandonRestores emptyPool 3 ↔
      (chainOfThree.Due emptyPool 3 → emptyPool.mempool 3 = false → chainOfThree.AbandonReaches emptyPool 3)) ∧
      ∀ b h, emptyPool.active b = some h →
        (chainOfThree.ConflictRestores emptyPool b 3 ↔ chainOfThree.ConflictReaches emptyPool b 3) :=
  marks_restored_iff chainOfThree_linked chainOfThree_closed chainOfThree_supported
    (by simp [chainOfThree])

/-- Abandoning the first abandons the second, and the third goes on spending it. -/
theorem grandchild_left :
    chainOfThree.Linked ∧ chainOfThree.Closed emptyPool ∧ chainOfThree.Supported emptyPool ∧
      chainOfThree.mapWallet.contains 3 = true ∧ ¬ chainOfThree.AbandonRestores emptyPool 3 := by
  refine ⟨chainOfThree_linked, chainOfThree_closed, chainOfThree_supported, by simp [chainOfThree], fun hrestores => ?_⟩
  have hmem : 3 ∈ chainOfThree.ids := mem_ids.2 ⟨spendingTx 3 2, rfl⟩
  have hdue (x : Uint256) (hx : chainOfThree.depth emptyPool x = 0) : chainOfThree.Due emptyPool x :=
    ⟨hx, (chainOfThree_unmarked x).1⟩
  have hreaches := (abandon_restores_iff chainOfThree_linked chainOfThree_closed chainOfThree_supported hmem).1 hrestores
    (hdue 3 (by decide)) rfl
  have hfirst : chainOfThree.Spends 3 4 := ⟨0, by simp [chainOfThree]⟩
  have hsecond : chainOfThree.Spends 4 5 := ⟨0, by simp [chainOfThree]⟩
  obtain h | ⟨n, hn⟩ | h | h := hreaches.grandchild 4 5 hfirst (hdue 4 (by decide)) hsecond
  · cases h
  · simp [chainOfThree, spendKey] at hn
  · simp [(chainOfThree_unmarked 5).1] at h
  · simp [(chainOfThree_unmarked 5).2] at h

end CWallet

end Zumy.Ledger
