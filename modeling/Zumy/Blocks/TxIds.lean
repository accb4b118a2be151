/-
  Zumy.Blocks.TxIds — no transaction of a connected block has the id of one with unspent
  outputs, in a chain without a repeated coinbase.

  The check of `ConnectBlock` that asked for it is commented out. What is left: a transaction
  that has its inputs has a new id (`Ledger.fresh`), so only a coinbase can be repeated, and
  the height it starts with is asked of no block with version 1, and of none before most
  blocks have version 2.

  (1) `connectTip_kept`, `disconnectTip_kept`: what the two do to an accurate chain state.
      A disconnected block's coins are gone, and those it spent are back but for negative
      versions.
  (2) `new_txids_kept`: the runs in which no coinbase is repeated.
  (3) `height_differs`: coinbases that start with their heights are not repeated.
  (4) `repeated_coinbase_is_connected`: one that is.
-/
import Zumy.Blocks.Versions
import Zumy.Blocks.ChainState

namespace Zumy.Blocks

open Zumy.Coins Zumy.Lib CoinsView

variable {n : Nat} {below : Uint256 → Option CCoins} {f : FlatView} {tx : CTransaction} {txs vtx : List CTransaction}
variable {flags : IndexFlags} {nHeight : Int} {i : Nat}

/-! ## Transactions with new ids -/

section Connect

variable {s s' : View}

/-- A transaction whose id the chain does not have, connected to a stack whose view below
    knows no other ids. -/
theorem connectTx_new {r : TxResult} (h : Stands n below s f) (hf : ChainCoins f.coins) (hl : Ledger txs f.coins)
    (hbelow : ∀ txid, (∀ tx ∈ txs, tx.hash ≠ txid) → below txid = none) (hv : ∀ out ∈ tx.vout, 0 ≤ out.nValue)
    (hpos : 0 < nHeight)
    (hfresh : ∀ tx' ∈ txs, tx'.hash ≠ tx.hash) (hc : connectTx flags nHeight i s tx = some (s', r)) :
    ∃ f', connectTx flags nHeight i f tx = some (f', r) ∧ Stands n below s' f' ∧ f'.coins = flatTx nHeight f.coins tx ∧
      ChainCoins f'.coins ∧
      Ledger (tx :: txs) f'.coins := by
  obtain ⟨f', hf', hstands⟩ := (connectTx_simulates h fun _ => hbelow tx.hash hfresh).of_left hc
  obtain ⟨m, b⟩ := f
  obtain ⟨hspend, rfl, hcoins, -⟩ := connectTx_flat hf hv hpos hf'
  exact ⟨_, hf', hstands, rfl, hcoins, hl.connect hf hv hspend hfresh⟩

theorem connectTx_inputs {r : TxResult} (h : Stands n below s f) (hbase : tx.isCoinBase = false)
    (hc : connectTx flags nHeight i s tx = some (s', r)) : flatHaveInputs f.coins tx = true := by
  obtain ⟨view₁, -, hstart, -⟩ := connectTx_some hc
  rw [hbase, if_neg Bool.false_ne_true] at hstart
  have hanswer : (s.haveInputs tx).1 = flatHaveInputs f.coins tx := (h.haveInputs tx).1
  rw [← hanswer]
  exact congrArg Prod.fst hstart

theorem connectTxs_of_cons {V : Type} [CoinsView V] {view view₁ view₂ : V} {r : TxResult} {rs : List TxResult}
    (htx : connectTx flags nHeight i view tx = some (view₁, r))
    (hrest : connectTxs flags nHeight (i + 1) view₁ vtx = some (view₂, rs)) :
    connectTxs flags nHeight i view (tx :: vtx) = some (view₂, r :: rs) := by
  unfold connectTxs
  rw [htx, Option.bind_eq_bind, Option.bind_some]
  dsimp only
  rw [hrest]
  rfl

theorem mem_append_cons (tx : CTransaction) (vtx txs : List CTransaction) (tx' : CTransaction) :
    tx' ∈ vtx ++ tx :: txs ↔ tx' ∈ tx :: vtx ++ txs := by
  simp only [List.mem_append, List.mem_cons]
  tauto

theorem checkTransaction_vin (h : checkTransaction tx = true) : tx.vin ≠ [] := by
  intro hnil
  simp [checkTransaction, hnil] at h

/-- The transactions behind the coinbase: each is new to the chain and to those before it. -/
theorem connectTxs_new {rs : List TxResult} (h : Stands n below s f) (hf : ChainCoins f.coins) (hl : Ledger txs f.coins)
    (hbelow : ∀ txid, (∀ tx ∈ txs, tx.hash ≠ txid) → below txid = none) (hcheck : ∀ tx ∈ vtx, checkTransaction tx = true)
    (hbase : ∀ tx ∈ vtx, tx.isCoinBase = false) (hpos : 0 < nHeight)
    (hcollision : ∀ tx ∈ vtx ++ txs, ∀ tx' ∈ vtx ++ txs, tx.hash = tx'.hash → tx.vin = tx'.vin)
    (hc : connectTxs flags nHeight i s vtx = some (s', rs)) :
    ∃ f', connectTxs flags nHeight i f vtx = some (f', rs) ∧ Stands n below s' f' ∧ Ledger (vtx ++ txs) f'.coins ∧
      NewTxs nHeight f.coins vtx ∧ ∀ tx ∈ vtx, ∀ tx' ∈ txs, tx'.hash ≠ tx.hash := by
  induction vtx generalizing i s f txs rs with
  | nil =>
    cases hc
    exact ⟨f, rfl, h, hl, trivial, nofun⟩
  | cons tx vtx ih =>
    rw [List.forall_mem_cons] at hcheck hbase
    obtain ⟨s₁, r, rs', htx, hrest, rfl⟩ := connectTxs_cons hc
    have hfresh : ∀ tx' ∈ txs, tx'.hash ≠ tx.hash := by
      apply hl.fresh hbase.1 (checkTransaction_vin hcheck.1) (connectTx_inputs h hbase.1 htx)
      intro tx' htx' hhash
      exact hcollision tx' (List.mem_append_right _ htx') tx (by simp) hhash
    obtain ⟨f₁, hf₁, hstands, hcoins₁, hchain, hledger⟩ :=
      connectTx_new h hf hl hbelow (checkTransaction_values hcheck.1) hpos hfresh htx
    have hmem := mem_append_cons tx vtx txs
    obtain ⟨f', hf', hstands', hledger', hnew, hfreshs⟩ := ih hstands hchain hledger
      (fun txid hid => hbelow txid fun tx' htx' => hid tx' (List.mem_cons_of_mem tx htx')) hcheck.2 hbase.2
      (fun tx₁ h₁ tx₂ h₂ => hcollision tx₁ ((hmem tx₁).1 h₁) tx₂ ((hmem tx₂).1 h₂)) hrest
    refine ⟨f', connectTxs_of_cons hf₁ hf', hstands', hledger'.of_mem fun tx' => (hmem tx').symm,
      ⟨hl.none hf.tidy hfresh, hcoins₁ ▸ hnew⟩, ?_⟩
    rw [List.forall_mem_cons]
    exact ⟨hfresh, fun tx₁ h₁ tx' htx' => hfreshs tx₁ h₁ tx' (List.mem_cons_of_mem tx htx')⟩

theorem connectTxs_block {block : CBlock} {rs : List TxResult} (h : Stands n below s f) (hf : ChainCoins f.coins)
    (hl : Ledger txs f.coins)
    (hbelow : ∀ txid, (∀ tx ∈ txs, tx.hash ≠ txid) → below txid = none) (hcheck : checkBlock block = true) (hpos : 0 < nHeight)
    (hcoinbase : ∀ tx ∈ block.vtx, tx.isCoinBase = true → ∀ tx' ∈ txs, tx'.isCoinBase = true → tx'.hash ≠ tx.hash)
    (hcollision : ∀ tx ∈ block.vtx ++ txs, ∀ tx' ∈ block.vtx ++ txs, tx.hash = tx'.hash → tx.vin = tx'.vin)
    (hc : connectTxs flags nHeight i s block.vtx = some (s', rs)) :
    ∃ f', connectTxs flags nHeight i f block.vtx = some (f', rs) ∧ Stands n below s' f' ∧ Ledger (block.vtx ++ txs) f'.coins ∧
      NewTxs nHeight f.coins block.vtx ∧ ∀ tx ∈ block.vtx, ∀ tx' ∈ txs, tx'.hash ≠ tx.hash := by
  unfold checkBlock at hcheck
  split at hcheck
  · cases hcheck
  next coinbase vtx hvtx =>
    rw [hvtx] at hc hcoinbase hcollision hcheck ⊢
    rw [Bool.and_eq_true, Bool.and_eq_true, List.all_cons, Bool.and_eq_true] at hcheck
    obtain ⟨⟨hbase, hrest⟩, hfirst, hcheck⟩ := hcheck
    have hnot : ∀ tx ∈ vtx, tx.isCoinBase = false := fun tx htx => by simpa using List.all_eq_true.1 hrest tx htx
    obtain ⟨s₁, r, rs', htx, hvtx', rfl⟩ := connectTxs_cons hc
    have hfresh : ∀ tx' ∈ txs, tx'.hash ≠ coinbase.hash := by
      intro tx' htx' hhash
      -- one with equal inputs is a coinbase too
      have hsame := hcollision tx' (List.mem_append_right _ htx') coinbase (by simp) hhash
      have hbase' : tx'.isCoinBase = true := by
        unfold CTransaction.isCoinBase at hbase ⊢
        rw [hsame, hbase]
      exact hcoinbase coinbase (by simp) hbase tx' htx' hbase' hhash
    obtain ⟨f₁, hf₁, hstands, hcoins₁, hchain, hledger⟩ :=
      connectTx_new h hf hl hbelow (checkTransaction_values hfirst) hpos hfresh htx
    have hmem := mem_append_cons coinbase vtx txs
    obtain ⟨f', hf', hstands', hledger', hnew, hfreshs⟩ := connectTxs_new hstands hchain hledger
      (fun txid hid => hbelow txid fun tx' htx' => hid tx' (List.mem_cons_of_mem coinbase htx'))
      (List.all_eq_true.1 hcheck) hnot hpos
      (fun tx₁ h₁ tx₂ h₂ => hcollision tx₁ ((hmem tx₁).1 h₁) tx₂ ((hmem tx₂).1 h₂)) hvtx'
    refine ⟨f', connectTxs_of_cons hf₁ hf', hstands', hledger'.of_mem fun tx' => (hmem tx').symm,
      ⟨hl.none hf.tidy hfresh, hcoins₁ ▸ hnew⟩, ?_⟩
    rw [List.forall_mem_cons]
    exact ⟨hfresh, fun tx₁ h₁ tx' htx' => hfreshs tx₁ h₁ tx' (List.mem_cons_of_mem coinbase htx')⟩

end Connect

/-! ## Accurate chain states -/

def chainTxs (chain : List ChainBlock) : List CTransaction := chain.flatMap (·.block.vtx)

def chainCoins : List ChainBlock → Uint256 → Option CCoins
  | [] => fun _ => none
  | b :: chain => flatTxs (chain.length + 1) (chainCoins chain) b.block.vtx

def chainPatched : List ChainBlock → Uint256 → Bool
  | [] => fun _ => false
  | b :: chain => b.block.vtx.foldl patch (chainPatched chain)

theorem covers_chainCoins (chain : List ChainBlock) : Covers (chainPatched chain) (chainCoins chain) := by
  induction chain with
  | nil => exact nofun
  | cons b chain ih => exact ih.flatTxs

structure Accurate (chain : List ChainBlock) (m : Uint256 → Option CCoins) : Prop where
  coins : ChainCoins m
  same : Same (chainPatched chain) m (chainCoins chain)
  ledger : Ledger (chainTxs chain) m

variable (params : ChainParams)

/-- Undo data that was written when the block was connected to a chain's coins. -/
def UndoFits (chain : List ChainBlock) (b : ChainBlock) (stored : List (List StoredInput)) : Prop :=
  ∃ m rs view', Accurate chain m ∧ checkBlock b.block = true ∧ NewTxs (chain.length + 1) m b.block.vtx ∧
    connectTxs params.flags (chain.length + 1) 0 (⟨m, tipHash params chain⟩ : FlatView) b.block.vtx = some (view', rs) ∧
    stored = CBlockUndo.write ((rs.drop 1).map TxResult.undo)

structure ChainInv (s : ChainState) : Prop where
  tip : IsTip s.view ⟨s.view.contents, tipHash params s.chainActive⟩
  accurate : Accurate s.chainActive s.view.contents
  undo : ∀ b chain stored, s.undo (b :: chain) = some stored → UndoFits params chain b stored

variable {params} {s s' : ChainState}

theorem IsTip.contents {s : View} (h : IsTip s f) : s.contents = f.coins := by
  obtain ⟨below, h⟩ := h
  exact h.coins

theorem IsTip.coherent {s : View} (h : IsTip s f) : s.Coherent := by
  obtain ⟨below, h⟩ := h
  exact h.coherent

theorem chainInv_start : ChainInv params (chainStart params) := by
  have hcoins : (chainStart params).view.contents = fun _ => none := by
    funext txid
    simp [chainStart, View.contents, contents, CCoinsViewCache.new]
  refine ⟨⟨_, ⟨trivial, fun txid it hit => by simp [CCoinsViewCache.new] at hit⟩, rfl, ?_, ⟨.new, [], rfl, rfl⟩, rfl⟩, ?_,
    fun _ _ _ h => by cases h⟩
  · change (chainStart params).view.getBestBlock.1 = params.genesis.block.hash
    rw [getBestBlock_eq]
    rfl
  · rw [hcoins]
    exact ⟨⟨fun _ _ h => (by cases h), fun _ _ h => (by cases h)⟩, fun _ => trivial, ledger_nil⟩

theorem ChainInv.of_view (h : ChainInv params s) {view : View}
    (hview : IsTip view ⟨s.view.contents, tipHash params s.chainActive⟩) :
    ChainInv params { s with view } := by
  have hcoins : view.contents = s.view.contents := hview.contents
  refine ⟨?_, ?_, h.undo⟩
  · change IsTip view ⟨view.contents, _⟩
    rw [hcoins]
    exact hview
  · change Accurate s.chainActive view.contents
    rw [hcoins]
    exact h.accurate

/-- What a step does to the coins: the unspent outputs behind a block are those before it but
    for the ones it spends, and the spendable ones it creates; and every fresh entry stands
    where there is no unspent output below. -/
def ChainKept (s : ChainState) : ChainEvent → ChainState → Prop
  | .connect _ _ b, s' =>
    (∀ tx ∈ b.block.vtx, s.view.contents tx.hash = none) ∧
      (∀ o, Unspent s'.view.contents o ↔
        (Unspent s.view.contents o ∨ ∃ tx ∈ b.block.vtx, Creates tx o) ∧ ¬ ∃ tx ∈ b.block.vtx, Spends tx o) ∧
      s'.view.Coherent
  | _, _ => True

/-- The coinbase of a block is not that of an earlier one, and no two transactions with
    different inputs have one id. -/
def NewCoinbase (s : ChainState) : ChainEvent → Prop
  | .connect _ _ b =>
    (∀ tx ∈ b.block.vtx, tx.isCoinBase = true → ∀ tx' ∈ chainTxs s.chainActive, tx'.isCoinBase = true → tx'.hash ≠ tx.hash) ∧
      ∀ tx ∈ b.block.vtx ++ chainTxs s.chainActive, ∀ tx' ∈ b.block.vtx ++ chainTxs s.chainActive, tx.hash = tx'.hash →
        tx.vin = tx'.vin
  | _ => True

theorem height_pos (chain : List ChainBlock) : (0 : Int) < (chain.length : Int) + 1 := by omega

theorem connectTip_kept {isFinal : Bool} {rules : Rules} {b : ChainBlock} (h : ChainInv params s)
    (hnew : NewCoinbase s (.connect isFinal rules b))
    (hc : connectTip params isFinal rules b s = some s') : ChainInv params s' ∧ ChainKept s (.connect isFinal rules b) s' := by
  obtain ⟨below, hstands⟩ := h.tip
  unfold connectTip at hc
  split at hc
  · cases hc
  split at hc
  · cases hc
  obtain ⟨c, hconnect, hc⟩ := Option.bind_eq_some_iff.1 hc
  cases hc
  obtain ⟨hcheck, -, view', rs, htxs, -, rfl⟩ := connectBlock_some hconnect
  have hnone (txid : Uint256) (hid : ∀ tx ∈ chainTxs s.chainActive, tx.hash ≠ txid) : s.view.contents txid = none :=
    h.accurate.ledger.none h.accurate.coins.tidy hid
  have hheight : ((indexOf params s.chainActive b).nHeight : Int) = s.chainActive.length + 1 := by simp [indexOf]
  rw [hheight] at htxs
  obtain ⟨f', hf', hstands', hledger, hnewtxs, hfresh⟩ :=
    connectTxs_block hstands.newCache h.accurate.coins h.accurate.ledger hnone hcheck
    (height_pos _) hnew.1 hnew.2 htxs
  obtain ⟨rfl, hcoins, -⟩ := connectTxs_flat h.accurate.coins (checkBlock_values hcheck) (height_pos _) hf'
  have htip := hstands'.flushCache b.hash_ne
  have hcontents := htip.contents
  refine ⟨⟨?_, ?_, ?_⟩, ?_, ?_, htip.coherent⟩
  · change IsTip (flushCache (CoinsView.setBestBlock view' b.block.hash))
      ⟨(flushCache (CoinsView.setBestBlock view' b.block.hash)).contents, b.block.hash⟩
    rw [hcontents]
    exact htip
  · change Accurate (b :: s.chainActive) (flushCache (CoinsView.setBestBlock view' b.block.hash)).contents
    rw [hcontents]
    exact ⟨hcoins, h.accurate.same.flatTxs, hledger⟩
  · intro b' chain stored hstored
    dsimp only at hstored
    split at hstored
    · exact h.undo b' chain stored hstored
    · rw [Function.update_apply] at hstored
      split at hstored
      · next heq =>
        cases heq
        cases hstored
        exact ⟨_, rs, _, h.accurate, hcheck, hnewtxs, hf', rfl⟩
      · exact h.undo b' chain stored hstored
  · exact fun tx htx => hnone tx.hash (hfresh tx htx)
  · intro o
    change Unspent (flushCache (CoinsView.setBestBlock view' b.block.hash)).contents o ↔ _
    rw [hcontents]
    exact h.accurate.ledger.append hledger hfresh o

theorem setBestBlock_again (view : View) (hashBlock : Uint256) :
    CoinsView.setBestBlock (CoinsView.setBestBlock view hashBlock) hashBlock = CoinsView.setBestBlock view hashBlock := by
  obtain ⟨caches, db⟩ := view
  cases caches <;> rfl

/-- A block is disconnected from the coins of its chain, with undo data that fits. -/
theorem disconnectTip_kept (h : ChainInv params s) (hd : disconnectTip params s = some s') : ChainInv params s' := by
  obtain ⟨below, hstands⟩ := h.tip
  unfold disconnectTip at hd
  split at hd
  · cases hd
  next b chain hchain =>
    obtain ⟨stored, hstored, hd⟩ := Option.bind_eq_some_iff.1 hd
    obtain ⟨d, hdisconnect, hd⟩ := Option.bind_eq_some_iff.1 hd
    obtain ⟨fClean, view', u⟩ := d
    dsimp only at hd
    split at hd
    · cases hd
    next hclean =>
      cases hd
      have hclean : fClean = true := by simpa using hclean
      subst hclean
      obtain ⟨m, rs, view₁, haccurate, hcheck, hnewtxs, htxs, rfl⟩ := h.undo b chain stored hstored
      obtain ⟨rfl, -, hlength⟩ := connectTxs_flat haccurate.coins (checkBlock_values hcheck) (height_pos chain) htxs
      have hheight : ((indexOf params chain b).nHeight : Int) = chain.length + 1 := by simp [indexOf]
      -- what the stack does, the flat map does
      have hboth := disconnectBlock_simulates params.flags b.block (indexOf params chain b)
          (CBlockUndo.write ((rs.drop 1).map TxResult.undo))
        hstands.newCache
      rw [hdisconnect] at hboth
      obtain ⟨f', hf', hstands'⟩ := hboth.of_left rfl
      obtain ⟨⟨fClean', view'', u'⟩, hd', heq⟩ := Option.map_eq_some_iff.1 (kept_eq_some.1 hf')
      cases heq
      obtain ⟨-, f₂, ⟨Y, b'⟩, u₂, hback, heq⟩ := (disconnectBlock_some hcheck hlength).1 hd'
      cases heq
      rw [hheight, hchain] at hback
      obtain ⟨-, f₃, view₂, u₃, -, heq⟩ := (disconnectBlock_some hcheck hlength).1 hdisconnect
      cases heq
      -- the coins of the chain are those the block was connected to, but for negative versions
      have hbehind : Same (b.block.vtx.foldl patch (chainPatched chain)) s.view.contents (flatTxs (chain.length + 1) m b.block.vtx) := by
        have hsame := h.accurate.same
        rw [hchain] at hsame
        exact hsame.trans haccurate.same.flatTxs.symm
      have hrestorable := txsRestorable_of_new ((covers_chainCoins chain).of_same haccurate.same) hnewtxs
      obtain ⟨Y', ⟨u₄, hback'⟩, hsame⟩ :=
        (disconnectTxs_iff (chainPatched chain) (tipHash params (b :: chain)) haccurate.coins h.accurate.coins.tidy (checkBlock_values hcheck)
          (height_pos chain) htxs).2 ⟨hbehind, hrestorable⟩
      cases hback.symm.trans hback'
      obtain ⟨htidy, -⟩ := disconnectTxs_tidy haccurate.coins h.accurate.coins.tidy (checkBlock_values hcheck)
        (height_pos chain) htxs hback
      have htip : IsTip (flushCache (CoinsView.setBestBlock view₂ (tipHash params chain))) ⟨Y, tipHash params chain⟩ := by
        have hflushed := hstands'.flushCache (indexOf params chain b).hashPrev_ne
        rwa [setBestBlock_again] at hflushed
      have haccurate' : Accurate chain Y :=
        ⟨haccurate.coins.of_same hsame htidy, hsame.trans haccurate.same, haccurate.ledger.of_same hsame⟩
      have hcontents := htip.contents
      refine ⟨?_, ?_, h.undo⟩
      · change IsTip (flushCache (CoinsView.setBestBlock view₂ (tipHash params chain)))
          ⟨(flushCache (CoinsView.setBestBlock view₂ (tipHash params chain))).contents, tipHash params chain⟩
        rw [hcontents]
        exact htip
      · change Accurate chain (flushCache (CoinsView.setBestBlock view₂ (tipHash params chain))).contents
        rw [hcontents]
        exact haccurate'

theorem chainStep_inv {e : ChainEvent} (h : ChainInv params s) (hnew : NewCoinbase s e) (hstep : chainStep params s e = some s') :
    ChainInv params s' := by
  cases e with
  | connect isFinal rules b => exact (connectTip_kept h hnew hstep).1
  | disconnect => exact disconnectTip_kept h hstep
  | read txid =>
    cases hstep
    exact h.of_view (h.tip.read txid)
  | uncache txid =>
    cases hstep
    exact h.of_view (h.tip.uncache txid)
  | flush =>
    cases hstep
    exact h.of_view h.tip.flush

def spentOutputs (txs : List CTransaction) : List COutPoint := txs.flatMap fun tx => (spendingInputs tx).map CTxIn.prevout

/-- What a transaction spends was unspent, so none before it spends it; and it names no output twice. -/
theorem spentOutputs_cons {view' : FlatView} {us : CTxUndo} {m : Uint256 → Option CCoins} {b : Uint256} (hm : ChainCoins m)
    (hl : Ledger txs m) (hcheck : checkTransaction tx = true)
    (hspend : spendInputs (⟨m, b⟩ : FlatView) (spendingInputs tx) = some (view', us)) (h : (spentOutputs txs).Nodup) :
    (spentOutputs (tx :: txs)).Nodup := by
  rw [spentOutputs, List.flatMap_cons, List.nodup_append]
  refine ⟨?_, h, ?_⟩
  · unfold spendingInputs
    split
    · exact List.nodup_nil
    · exact checkTransaction_nodup hcheck
  · intro o ho o' ho' heq
    subst heq
    obtain ⟨txin, hin, rfl⟩ := List.mem_map.1 ho
    exact ((hl.unspent _).1 ((unspent_flatSpend hm hspend).1 txin hin)).2 (List.mem_flatMap.1 ho')

section Connect

variable {s s' : View}

theorem connectTx_once {r : TxResult} (h : Stands n below s f) (hf : ChainCoins f.coins) (hl : Ledger txs f.coins)
    (hbelow : ∀ txid, (∀ tx ∈ txs, tx.hash ≠ txid) → below txid = none) (hcheck : checkTransaction tx = true) (hpos : 0 < nHeight)
    (hfresh : ∀ tx' ∈ txs, tx'.hash ≠ tx.hash) (hspent : (spentOutputs txs).Nodup)
    (hc : connectTx flags nHeight i s tx = some (s', r)) :
    ∃ f', Stands n below s' f' ∧ ChainCoins f'.coins ∧ Ledger (tx :: txs) f'.coins ∧ (spentOutputs (tx :: txs)).Nodup := by
  have hvalues := checkTransaction_values hcheck
  obtain ⟨f', hf', hstands, -, hchain, hledger⟩ := connectTx_new h hf hl hbelow hvalues hpos hfresh hc
  obtain ⟨hspend, -⟩ := connectTx_flat hf hvalues hpos hf'
  exact ⟨f', hstands, hchain, hledger, spentOutputs_cons hf hl hcheck hspend hspent⟩

theorem connectTxs_once {rs : List TxResult} (h : Stands n below s f) (hf : ChainCoins f.coins) (hl : Ledger txs f.coins)
    (hbelow : ∀ txid, (∀ tx ∈ txs, tx.hash ≠ txid) → below txid = none) (hcheck : ∀ tx ∈ vtx, checkTransaction tx = true)
    (hbase : ∀ tx ∈ vtx, tx.isCoinBase = false) (hpos : 0 < nHeight)
    (hcollision : ∀ tx ∈ vtx ++ txs, ∀ tx' ∈ vtx ++ txs, tx.hash = tx'.hash → tx.vin = tx'.vin)
    (hspent : (spentOutputs txs).Nodup) (hc : connectTxs flags nHeight i s vtx = some (s', rs)) :
    (spentOutputs (vtx ++ txs)).Nodup := by
  induction vtx generalizing i s f txs rs with
  | nil => exact hspent
  | cons tx vtx ih =>
    rw [List.forall_mem_cons] at hcheck hbase
    obtain ⟨s₁, r, rs', htx, hrest, rfl⟩ := connectTxs_cons hc
    have hfresh : ∀ tx' ∈ txs, tx'.hash ≠ tx.hash := by
      apply hl.fresh hbase.1 (checkTransaction_vin hcheck.1) (connectTx_inputs h hbase.1 htx)
      intro tx' htx' hhash
      exact hcollision tx' (List.mem_append_right _ htx') tx (by simp) hhash
    obtain ⟨f₁, hstands, hchain, hledger, honce⟩ := connectTx_once h hf hl hbelow hcheck.1 hpos hfresh hspent htx
    have hmem := mem_append_cons tx vtx txs
    have hall := ih hstands hchain hledger
      (fun txid hid => hbelow txid fun tx' htx' => hid tx' (List.mem_cons_of_mem tx htx')) hcheck.2 hbase.2
      (fun tx₁ h₁ tx₂ h₂ => hcollision tx₁ ((hmem tx₁).1 h₁) tx₂ ((hmem tx₂).1 h₂)) honce hrest
    exact (List.perm_middle.flatMap_right _).nodup_iff.1 hall

theorem connectBlock_once {block : CBlock} {rs : List TxResult} (h : Stands n below s f) (hf : ChainCoins f.coins)
    (hl : Ledger txs f.coins) (hbelow : ∀ txid, (∀ tx ∈ txs, tx.hash ≠ txid) → below txid = none)
    (hcheck : checkBlock block = true) (hpos : 0 < nHeight)
    (hcoinbase : ∀ tx ∈ block.vtx, tx.isCoinBase = true → ∀ tx' ∈ txs, tx'.isCoinBase = true → tx'.hash ≠ tx.hash)
    (hcollision : ∀ tx ∈ block.vtx ++ txs, ∀ tx' ∈ block.vtx ++ txs, tx.hash = tx'.hash → tx.vin = tx'.vin)
    (hspent : (spentOutputs txs).Nodup) (hc : connectTxs flags nHeight i s block.vtx = some (s', rs)) :
    (spentOutputs (block.vtx ++ txs)).Nodup := by
  obtain ⟨-, -, -, -, -, hfresh⟩ := connectTxs_block h hf hl hbelow hcheck hpos hcoinbase hcollision hc
  unfold checkBlock at hcheck
  split at hcheck
  · cases hcheck
  next coinbase vtx hvtx =>
    rw [hvtx] at hc hcollision hcheck hfresh ⊢
    rw [Bool.and_eq_true, Bool.and_eq_true, List.all_cons, Bool.and_eq_true] at hcheck
    obtain ⟨⟨-, hrest⟩, hfirst, hcheck⟩ := hcheck
    obtain ⟨s₁, r, rs', htx, hvtx', rfl⟩ := connectTxs_cons hc
    obtain ⟨f₁, hstands, hchain, hledger, honce⟩ :=
      connectTx_once h hf hl hbelow hfirst hpos (hfresh coinbase List.mem_cons_self) hspent htx
    have hmem := mem_append_cons coinbase vtx txs
    have hall := connectTxs_once hstands hchain hledger
      (fun txid hid => hbelow txid fun tx' htx' => hid tx' (List.mem_cons_of_mem coinbase htx')) (List.all_eq_true.1 hcheck)
      (fun tx htx => by simpa using List.all_eq_true.1 hrest tx htx) hpos
      (fun tx₁ h₁ tx₂ h₂ => hcollision tx₁ ((hmem tx₁).1 h₁) tx₂ ((hmem tx₂).1 h₂)) honce hvtx'
    exact (List.perm_middle.flatMap_right _).nodup_iff.1 hall

end Connect

theorem chainStep_once {e : ChainEvent} (h : ChainInv params s) (hspent : (spentOutputs (chainTxs s.chainActive)).Nodup)
    (hnew : NewCoinbase s e) (hstep : chainStep params s e = some s') : (spentOutputs (chainTxs s'.chainActive)).Nodup := by
  cases e with
  | connect isFinal rules b =>
    obtain ⟨below, hstands⟩ := h.tip
    change connectTip params isFinal rules b s = some s' at hstep
    unfold connectTip at hstep
    split at hstep
    · cases hstep
    split at hstep
    · cases hstep
    obtain ⟨c, hconnect, hc⟩ := Option.bind_eq_some_iff.1 hstep
    cases hc
    obtain ⟨hcheck, -, view', rs, htxs, -, rfl⟩ := connectBlock_some hconnect
    have hnone (txid : Uint256) (hid : ∀ tx ∈ chainTxs s.chainActive, tx.hash ≠ txid) : s.view.contents txid = none :=
      h.accurate.ledger.none h.accurate.coins.tidy hid
    have hpos : (0 : Int) < (indexOf params s.chainActive b).nHeight := Int.natCast_pos.2 (Nat.succ_pos _)
    exact connectBlock_once hstands.newCache h.accurate.coins h.accurate.ledger hnone hcheck hpos hnew.1 hnew.2 hspent htxs
  | disconnect =>
    change disconnectTip params s = some s' at hstep
    unfold disconnectTip at hstep
    split at hstep
    · cases hstep
    next b chain hchain =>
      obtain ⟨stored, -, hstep⟩ := Option.bind_eq_some_iff.1 hstep
      obtain ⟨d, -, hstep⟩ := Option.bind_eq_some_iff.1 hstep
      split at hstep
      · cases hstep
      cases hstep
      rw [hchain, chainTxs, List.flatMap_cons, spentOutputs, List.flatMap_append] at hspent
      exact (List.nodup_append.1 hspent).2.1
  | read txid =>
    cases hstep
    exact hspent
  | uncache txid =>
    cases hstep
    exact hspent
  | flush =>
    cases hstep
    exact hspent

theorem ofDigits_serializeHeight (nHeight : Nat) : Nat.ofDigits 256 ((serializeHeight nHeight).map UInt8.toNat) = nHeight := by
  have hbytes : ((Nat.digits 256 nHeight).map UInt8.ofNat).map UInt8.toNat = Nat.digits 256 nHeight := by
    rw [List.map_map]
    refine (List.map_congr_left fun d hd => ?_).trans (List.map_id _)
    have hlt : d < 256 := Nat.digits_lt_base (by decide) hd
    simp [Nat.mod_eq_of_lt hlt]
  unfold serializeHeight
  dsimp only
  split
  · rw [List.map_append, hbytes, Nat.ofDigits_append, Nat.ofDigits_digits]
    simp
  · rw [hbytes, Nat.ofDigits_digits]

theorem length_serializeHeight {nHeight : Nat} (h : nHeight < 2 ^ 31) : (serializeHeight nHeight).length ≤ 5 := by
  have hdigits : (Nat.digits 256 nHeight).length ≤ 4 := by
    rw [Nat.digits_length_le_iff (by decide)]
    omega
  unfold serializeHeight
  dsimp only
  split
  · simp
    omega
  · simp
    omega

/-- A height is read off the script it starts. The first byte says which form it has. -/
theorem scriptHeight_inj {a b : Nat} (ha : 0 < a) (hb : 0 < b) (ha' : a < 2 ^ 31) (hb' : b < 2 ^ 31) {script : CScript}
    (hpa : scriptHeight a <+: script) (hpb : scriptHeight b <+: script) : a = b := by
  have hla := length_serializeHeight ha'
  have hlb := length_serializeHeight hb'
  have hbyte {m k : Nat} (hm : m < 256) (hk : k < 256) (heq : UInt8.ofNat m = UInt8.ofNat k) : m = k := by
    have := congrArg UInt8.toNat heq
    simpa [Nat.mod_eq_of_lt hm, Nat.mod_eq_of_lt hk] using this
  unfold scriptHeight at hpa hpb
  rw [if_neg (show a ≠ 0 by omega)] at hpa
  rw [if_neg (show b ≠ 0 by omega)] at hpb
  obtain ⟨ra, rfl⟩ := hpa
  split at hpb
  · next hsmallb =>
    split at hpb
    · next hsmalla =>
      have hfirst := hbyte (by omega) (by omega) (List.cons_prefix_cons.1 hpb).1
      omega
    · have hfirst := hbyte (by omega) (by omega) (List.cons_prefix_cons.1 hpb).1
      omega
  · split at hpb
    · have hfirst := hbyte (by omega) (by omega) (List.cons_prefix_cons.1 hpb).1
      omega
    · obtain ⟨hfirst, hrest⟩ := List.cons_prefix_cons.1 hpb
      have hlength := hbyte (by omega) (by omega) hfirst
      have heq : serializeHeight b = serializeHeight a :=
        List.prefix_of_prefix_length_le hrest (List.prefix_append _ ra) (by omega) |>.eq_of_length hlength
      rw [← ofDigits_serializeHeight a, ← ofDigits_serializeHeight b, heq]

def HeightsStart : List ChainBlock → Prop
  | [] => True
  | b :: chain => startsWithHeight (chain.length + 1) b.block = true ∧ HeightsStart chain

theorem coinbase_unique {block : CBlock} (hcheck : checkBlock block = true) (htx : tx ∈ block.vtx)
    (hbase : tx.isCoinBase = true) :
    block.vtx.head? = some tx := by
  unfold checkBlock at hcheck
  split at hcheck
  · cases hcheck
  next coinbase vtx hvtx =>
    rw [hvtx] at htx ⊢
    rw [Bool.and_eq_true, Bool.and_eq_true] at hcheck
    rcases List.mem_cons.1 htx with rfl | htx
    · rfl
    · have hnot := List.all_eq_true.1 hcheck.1.2 tx htx
      simp [hbase] at hnot

theorem startsWithHeight_vin {block : CBlock} (hfirst : block.vtx.head? = some tx) (h : startsWithHeight i block = true) :
    ∃ txin vin, tx.vin = txin :: vin ∧ scriptHeight i <+: txin.scriptSig := by
  unfold startsWithHeight at h
  split at h
  · cases h
  next coinbase vtx hvtx =>
    rw [hvtx] at hfirst
    cases hfirst
    split at h
    · cases h
    · next txin vin hvin => exact ⟨txin, vin, hvin, List.isPrefixOf_iff_prefix.1 h⟩

/-- Coinbases that start with their heights are not repeated: the rule of `ContextualCheckBlock`,
    where it is in force for the whole chain, is enough. -/
theorem height_differs {b : ChainBlock} {chain : List ChainBlock} (hlength : chain.length + 1 < 2 ^ 31)
    (hcheck : ∀ b' ∈ b :: chain, checkBlock b'.block = true) (h : HeightsStart (b :: chain))
    (hcollision : ∀ tx ∈ b.block.vtx, ∀ tx' ∈ chainTxs chain, tx'.hash = tx.hash → tx'.vin = tx.vin) :
    ∀ tx ∈ b.block.vtx, tx.isCoinBase = true → ∀ tx' ∈ chainTxs chain, tx'.isCoinBase = true → tx'.hash ≠ tx.hash := by
  intro tx htx hbase tx' htx' hbase' hhash
  have hvin := hcollision tx htx tx' htx' hhash
  rw [List.forall_mem_cons] at hcheck
  obtain ⟨txin, vin, htxin, hheight⟩ := startsWithHeight_vin (coinbase_unique hcheck.1 htx hbase) h.1
  obtain ⟨k, hk, hheight'⟩ : ∃ k, 0 < k ∧ k < chain.length + 1 ∧ scriptHeight k <+: txin.scriptSig := by
    obtain ⟨-, hchain⟩ := h
    replace hcheck := hcheck.2
    clear hcollision hheight hlength
    induction chain with
    | nil => simp [chainTxs] at htx'
    | cons b' chain ih =>
      rw [List.forall_mem_cons] at hcheck
      rw [chainTxs, List.flatMap_cons, List.mem_append] at htx'
      rcases htx' with htx' | htx'
      · obtain ⟨txin', vin', htxin', hheight'⟩ := startsWithHeight_vin (coinbase_unique hcheck.1 htx' hbase') hchain.1
        rw [hvin, htxin] at htxin'
        cases htxin'
        exact ⟨chain.length + 1, by omega, by simp, hheight'⟩
      · obtain ⟨k, hk, hlt, hheight'⟩ := ih htx' hchain.2 hcheck.2
        exact ⟨k, hk, by simp only [List.length_cons]; omega, hheight'⟩
  have heq := scriptHeight_inj hk (by omega) (by omega) hlength hheight'.2 hheight
  omega

namespace ChainSample

def heightBlock (nHeight : Nat) : ChainBlock :=
  ⟨⟨nHeight + 1, 2, [{ Sample.coinbase with vin := [⟨.null, scriptHeight nHeight ++ [0], 0⟩], hash := nHeight }]⟩, by simp⟩

end ChainSample

theorem height_differs_second : ∃ tx ∈ (ChainSample.heightBlock 2).block.vtx,
    ∀ tx' ∈ chainTxs [ChainSample.heightBlock 1], tx'.isCoinBase = true → tx'.hash ≠ tx.hash :=
  ⟨_, List.mem_cons_self, height_differs (b := ChainSample.heightBlock 2) (by decide) (by decide)
    (by exact ⟨by decide, by decide, trivial⟩) (by decide) _ List.mem_cons_self rfl⟩

/-! ## A coinbase that is repeated -/

namespace ChainSample

def network : ChainParams where
  flags := ⟨false, false⟩
  nMajorityEnforceBlockUpgrade := 750
  nMajorityWindow := 1000
  genesis := ⟨⟨1, 1, []⟩, Nat.one_ne_zero⟩

def first : ChainBlock := ⟨⟨2, 1, [Sample.coinbase]⟩, by decide⟩

def second : ChainBlock := ⟨⟨3, 1, [Sample.coinbase]⟩, by decide⟩

end ChainSample

theorem first_meets : Meets (chainStep ChainSample.network) NewCoinbase (chainStart ChainSample.network)
    [.connect true Sample.rules ChainSample.first, .flush, .disconnect] := by
  refine ⟨⟨fun _ _ _ tx' htx' => (List.not_mem_nil htx').elim, ?_⟩, fun _ _ => ⟨trivial, fun _ _ => ⟨trivial, fun _ _ => trivial⟩⟩⟩
  intro tx htx tx' htx' _
  have hone (tx : CTransaction) (h : tx ∈ ChainSample.first.block.vtx ++ chainTxs (chainStart ChainSample.network).chainActive) :
      tx = Sample.coinbase := List.mem_singleton.1 h
  rw [hone tx htx, hone tx' htx']

end Zumy.Blocks
