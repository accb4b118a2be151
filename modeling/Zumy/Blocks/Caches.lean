/-
  Zumy.Blocks.Caches — blocks are connected to and disconnected from a stack of coin caches.

  `Stands`: a coherent stack and the flat map it stands for. What `ConnectBlock` does to the
  stack it does to the flat map, where the view below the cache has no unspent output of the
  transactions it makes new coins of: `ModifyNewCoins` does not look there. What
  `DisconnectBlock` does, as far as it finds nothing wrong, it does to both.
-/
import Zumy.Lib.Simulation
import Zumy.Blocks.Undo

namespace Zumy.Blocks

open Zumy.Coins Zumy.Lib CoinsView

def bestOf (db : CCoinsViewDB) (hashes : List Uint256) : Uint256 := (hashes.find? (· ≠ 0)).getD db.hashBestBlock

theorem getBestBlock_go (s : View) (caches : List CCoinsViewCache) :
    (View.getBestBlock.go s caches).1 = bestOf s.db (caches.map CCoinsViewCache.hashBlock) := by
  induction caches with
  | nil => rfl
  | cons c below ih =>
    unfold View.getBestBlock.go bestOf
    rw [List.map_cons, List.find?_cons]
    by_cases hnull : c.hashBlock = 0
    · simp only [hnull, if_true, ne_eq, not_true_eq_false, decide_false]
      exact ih
    · simp only [hnull, if_false, ne_eq, not_false_eq_true, decide_true, Option.getD_some]

theorem getBestBlock_eq (s : View) : s.getBestBlock.1 = bestOf s.db (s.caches.map CCoinsViewCache.hashBlock) :=
  getBestBlock_go s s.caches

theorem fetchCoins_hashes (db : CCoinsViewDB) (txid : Uint256) (caches : List CCoinsViewCache) :
    (View.fetchCoins db txid caches).2.map CCoinsViewCache.hashBlock = caches.map CCoinsViewCache.hashBlock := by
  induction caches with
  | nil => rfl
  | cons c below ih =>
    unfold View.fetchCoins
    split
    · rfl
    · split
      · next hfetch =>
        rw [hfetch] at ih
        simp [ih]
      · next hfetch =>
        rw [hfetch] at ih
        simp [ih]

theorem modifyCoins_hashes (txid : Uint256) (f : CCoins → CCoins) (s : View) :
    (s.modifyCoins txid f).caches.map CCoinsViewCache.hashBlock = s.caches.map CCoinsViewCache.hashBlock ∧
      (s.modifyCoins txid f).db = s.db := by
  obtain ⟨caches, db⟩ := s
  cases caches with
  | nil => exact ⟨rfl, rfl⟩
  | cons c below =>
    have hfetched := fetchCoins_hashes db txid below
    unfold View.modifyCoins
    dsimp only
    split
    · exact ⟨rfl, rfl⟩
    · split
      · next hfetch =>
        rw [hfetch] at hfetched
        exact ⟨by simp [hfetched, CCoinsViewCache.endModifier], rfl⟩
      · next hfetch =>
        rw [hfetch] at hfetched
        exact ⟨by simp [hfetched, CCoinsViewCache.endModifier], rfl⟩

/-- A coherent stack of `n` caches stands for a flat map; `below` is what the view below the
    top holds. -/
structure Stands (n : Nat) (below : Uint256 → Option CCoins) (s : View) (f : FlatView) : Prop where
  coherent : s.Coherent
  coins : s.contents = f.coins
  block : getBestBlock s = f.hashBlock
  top : ∃ c cs, s.caches = c :: cs ∧ contents s.db cs = below
  depth : s.caches.length = n

variable {n : Nat} {below : Uint256 → Option CCoins} {s : View} {f : FlatView} {txid : Uint256}

/-- What a modifier refers to is what the flat map has, unless it is all spent. -/
theorem Stands.modifying (h : Stands n below s f) (txid : Uint256) : (modifying s txid).unspent = f.coins txid := by
  have hanswer : (getCoins s txid).bind CCoins.unspent = f.coins txid := by
    rw [← h.coins]
    exact getCoins_answer s txid
  unfold Blocks.modifying
  cases hcoins : getCoins s txid with
  | none =>
    rw [hcoins] at hanswer
    exact hanswer
  | some c =>
    rw [hcoins] at hanswer
    exact hanswer

theorem Stands.modifying_some {c : CCoins} (h : Stands n below s f) (hc : f.coins txid = some c) : Blocks.modifying s txid = c :=
  (CCoins.unspent_eq_some_iff.1 ((h.modifying txid).trans hc)).2

theorem Stands.modifying_none (h : Stands n below s f) (hc : f.coins txid = none) : (Blocks.modifying s txid).isPruned = true :=
  CCoins.unspent_eq_none_iff.1 ((h.modifying txid).trans hc)

theorem modifying_flat_some {c : CCoins} (hc : f.coins txid = some c) : modifying f txid = c := by
  simp [modifying, getCoins, hc]

theorem modifying_flat_none (hc : f.coins txid = none) : modifying f txid = .empty := by
  simp [modifying, getCoins, hc]

theorem Stands.getCoins (h : Stands n below s f) (txid : Uint256) : Stands n below (s.getCoins txid).2 f := by
  obtain ⟨hsame, hcoherent⟩ := getCoins_spec h.coherent txid
  have hlength : (View.fetchCoins s.db txid s.caches).2.length = s.caches.length := by
    simpa using congrArg List.length (fetchCoins_hashes s.db txid s.caches)
  refine ⟨hcoherent, hsame.trans h.coins, ?_, ?_, hlength.trans h.depth⟩
  · rw [← h.block]
    change (s.getCoins txid).2.getBestBlock.1 = s.getBestBlock.1
    rw [getBestBlock_eq, getBestBlock_eq]
    exact congrArg _ (fetchCoins_hashes s.db txid s.caches)
  · obtain ⟨c, cs, hcaches, rfl⟩ := h.top
    obtain ⟨caches, db⟩ := s
    change caches = c :: cs at hcaches
    subst hcaches
    have hbelow := (fetchCoins_spec h.coherent.1 txid).1
    unfold View.getCoins View.fetchCoins
    dsimp only
    cases hit : c.cacheCoins[txid]? with
    | some it => exact ⟨c, cs, rfl, rfl⟩
    | none =>
      cases hfetch : View.fetchCoins db txid cs with
      | mk answer cs' =>
        rw [hfetch] at hbelow
        cases answer with
        | none => exact ⟨c, cs', rfl, hbelow⟩
        | some tmp => exact ⟨_, cs', rfl, hbelow⟩

theorem Stands.haveInputs (h : Stands n below s f) (tx : CTransaction) :
    (s.haveInputs tx).1 = (haveInputs f tx).1 ∧ Stands n below (s.haveInputs tx).2 f := by
  have hanswer : (s.haveInputs tx).1 = flatHaveInputs f.coins tx := by
    rw [← h.coins]
    exact haveInputs_spec h.coherent tx
  refine ⟨hanswer, ?_⟩
  unfold View.haveInputs
  split
  · exact h
  · apply List.foldlRecOn (motive := fun acc : Bool × View => Stands n below acc.2 f) _ _ h
    intro acc hacc txin _
    split
    · exact hacc.getCoins txin.prevout.hash
    · exact hacc

theorem Stands.modifyCoins (h : Stands n below s f) (txid : Uint256) (g : CCoins → CCoins)
    (hg : f.coins txid = none → ∀ a, a.isPruned = true → (g a).unspent = (g .empty).unspent) :
    Stands n below (modifyCoins s txid g) (modifyCoins f txid g) := by
  obtain ⟨c, cs, hcaches, rfl⟩ := h.top
  have hhashes := modifyCoins_hashes txid g s
  have hlength : (s.modifyCoins txid g).caches.length = n := by
    rw [← h.depth]
    simpa using congrArg List.length hhashes.1
  have hblock : (s.modifyCoins txid g).getBestBlock.1 = f.hashBlock := by
    rw [← h.block, getBestBlock_eq, hhashes.1, hhashes.2, ← getBestBlock_eq]
    rfl
  obtain ⟨caches, db⟩ := s
  change caches = c :: cs at hcaches
  subst hcaches
  have hcoins : contents db (c :: cs) = f.coins := h.coins
  obtain ⟨c', cs', heq, hbelow, hcontents, hcoherent⟩ := modifyCoins_spec_of h.coherent txid g (by rw [hcoins]; exact hg)
  change Stands n (contents db cs) (View.modifyCoins txid g ⟨c :: cs, db⟩) _
  rw [heq] at hblock hlength ⊢
  refine ⟨hcoherent, ?_, hblock, ⟨c', cs', rfl, hbelow⟩, hlength⟩
  change contents db (c' :: cs') = flatModify f.coins txid g
  rw [hcontents, hcoins]

theorem Stands.modifyNewCoins (h : Stands n below s f) (g : CCoins → CCoins) (hnew : below txid = none) :
    Stands n below (modifyNewCoins s txid g) (modifyNewCoins f txid g) := by
  obtain ⟨c, cs, hcaches, rfl⟩ := h.top
  have hblock := h.block
  change s.getBestBlock.1 = f.hashBlock at hblock
  rw [getBestBlock_eq] at hblock
  obtain ⟨caches, db⟩ := s
  change caches = c :: cs at hcaches
  subst hcaches
  have hcoins : contents db (c :: cs) = f.coins := h.coins
  obtain ⟨c', heq, hcontents, hcoherent⟩ := modifyNewCoins_spec h.coherent g hnew
  change Stands n (contents db cs) (View.modifyNewCoins txid g ⟨c :: cs, db⟩) _
  have hbest : (View.modifyNewCoins txid g ⟨c :: cs, db⟩).getBestBlock.1 = f.hashBlock := by
    rw [getBestBlock_eq]
    exact hblock
  rw [heq] at hbest ⊢
  refine ⟨hcoherent, ?_, hbest, ⟨c', cs, rfl, rfl⟩, h.depth⟩
  change contents db (c' :: cs) = flatNew f.coins txid g
  rw [hcontents, hcoins]

theorem Stands.setBestBlock (h : Stands n below s f) {hashBlock : Uint256} (hne : hashBlock ≠ 0) :
    Stands n below (setBestBlock s hashBlock) (setBestBlock f hashBlock) := by
  obtain ⟨c, cs, hcaches, rfl⟩ := h.top
  obtain ⟨caches, db⟩ := s
  change caches = c :: cs at hcaches
  subst hcaches
  refine ⟨h.coherent, h.coins, ?_, ⟨_, cs, rfl, rfl⟩, h.depth⟩
  change (View.setBestBlock hashBlock ⟨c :: cs, db⟩).getBestBlock.1 = hashBlock
  rw [getBestBlock_eq]
  simp [View.setBestBlock, bestOf, hne]

theorem Stands.getOutputFor (h : Stands n below s f) (input : CTxIn) : getOutputFor s input = getOutputFor f input := by
  have hanswer : (CoinsView.getCoins s input.prevout.hash).bind CCoins.unspent = CoinsView.getCoins f input.prevout.hash := by
    change _ = f.coins input.prevout.hash
    rw [← h.coins]
    exact getCoins_answer s input.prevout.hash
  unfold Blocks.getOutputFor
  rw [← hanswer]
  cases CoinsView.getCoins s input.prevout.hash with
  | none => rfl
  | some c =>
    cases hpruned : c.isPruned with
    | true => simp [CCoins.unspent_of_pruned hpruned, isAvailable_of_pruned hpruned]
    | false => simp [CCoins.unspent_of_not_pruned hpruned]

/-! ## Connecting -/

section Connect

variable {flags : IndexFlags} {rules : Rules} {nHeight : Int} {i : Nat} {tx : CTransaction} {vtx : List CTransaction}

theorem spendInput_simulates (h : Stands n below s f) (txin : CTxIn) :
    Simulates (Stands n below) (spendInput s txin) (spendInput f txin) := by
  have hmodified := h.modifyCoins txin.prevout.hash (·.spend txin.prevout.n)
    fun _ a ha => (Modification.spend txin.prevout.n).respects a .empty ha rfl
  cases hcoins : f.coins txin.prevout.hash with
  | none =>
    -- all outputs are spent, or there are none
    have hpruned := h.modifying_none hcoins
    unfold spendInput
    rw [modifying_flat_none hcoins]
    have hflat : CCoins.empty.vout[txin.prevout.n]? = none := rfl
    dsimp only
    rw [hflat]
    cases hout : (modifying s txin.prevout.hash).vout[txin.prevout.n]? with
    | none => trivial
    | some txout =>
      have hnull : txout.isNull = true := List.all_eq_true.1 hpruned txout (List.mem_of_getElem? hout)
      dsimp only
      rw [hnull]
      trivial
  | some c =>
    unfold spendInput
    rw [h.modifying_some hcoins, modifying_flat_some hcoins]
    dsimp only
    cases c.vout[txin.prevout.n]? with
    | none => trivial
    | some txout =>
      dsimp only
      cases txout.isNull with
      | true => trivial
      | false => exact ⟨hmodified, rfl⟩

theorem spendInputs_simulates (vin : List CTxIn) (h : Stands n below s f) :
    Simulates (Stands n below) (spendInputs s vin) (spendInputs f vin) := by
  induction vin generalizing s f with
  | nil => exact ⟨h, rfl⟩
  | cons txin vin ih =>
    unfold spendInputs
    apply Simulates.bind (spendInput_simulates h txin)
    intro s₁ f₁ undo h₁
    apply Simulates.bind (ih h₁)
    intro s₂ f₂ vprevout h₂
    exact ⟨h₂, rfl⟩

theorem updateCoins_simulates (h : Stands n below s f) (hnew : tx.isCoinBase = false → below tx.hash = none) :
    Simulates (Stands n below) (updateCoins s tx nHeight) (updateCoins f tx nHeight) := by
  unfold updateCoins
  cases hbase : tx.isCoinBase with
  | true => exact ⟨h.modifyCoins tx.hash _ fun _ _ _ => rfl, rfl⟩
  | false =>
    simp only [Bool.false_eq_true, if_false]
    apply Simulates.bind (spendInputs_simulates tx.vin h)
    intro s₁ f₁ txundo h₁
    exact ⟨h₁.modifyNewCoins _ (hnew hbase), rfl⟩

theorem modifying_inputs (h : Stands n below s f) (hbase : tx.isCoinBase = false) (hinputs : flatHaveInputs f.coins tx = true) :
    (tx.vin.map fun txin => modifying s txin.prevout.hash) = tx.vin.map fun txin => modifying f txin.prevout.hash := by
  apply List.map_congr_left
  intro txin hmem
  rw [flatHaveInputs, hbase, Bool.false_or] at hinputs
  have hthere := List.all_eq_true.1 hinputs txin hmem
  cases hcoins : f.coins txin.prevout.hash with
  | none =>
    rw [hcoins] at hthere
    cases hthere
  | some c => rw [h.modifying_some hcoins, modifying_flat_some hcoins]

theorem connectTx_simulates (h : Stands n below s f) (hnew : tx.isCoinBase = false → below tx.hash = none) :
    Simulates (Stands n below) (connectTx flags nHeight i s tx) (connectTx flags nHeight i f tx) := by
  have hbehind (s₁ : View) (h₁ : Stands n below s₁ f)
      (hspent : ((spendingInputs tx).map fun txin => modifying s₁ txin.prevout.hash) =
      (spendingInputs tx).map fun txin => modifying f txin.prevout.hash) :
      Simulates (Stands n below)
        (((spendingInputs tx).mapM (getOutputFor s₁)).bind fun prevouts => (updateCoins s₁ tx nHeight).bind fun r =>
          some (r.1, (⟨r.2, connectUpdates flags ⟨nHeight, i, tx.hash⟩ tx prevouts,
            (spendingInputs tx).map fun txin => modifying s₁ txin.prevout.hash⟩ : TxResult)))
        (((spendingInputs tx).mapM (getOutputFor f)).bind fun prevouts => (updateCoins f tx nHeight).bind fun r =>
          some (r.1, (⟨r.2, connectUpdates flags ⟨nHeight, i, tx.hash⟩ tx prevouts,
            (spendingInputs tx).map fun txin => modifying f txin.prevout.hash⟩ : TxResult))) := by
    have houtputs₁ : getOutputFor f = getOutputFor s₁ := funext fun input => (h₁.getOutputFor input).symm
    rw [houtputs₁, hspent]
    cases (spendingInputs tx).mapM (getOutputFor s₁) with
    | none => trivial
    | some prevouts =>
      apply Simulates.bind (updateCoins_simulates h₁ hnew)
      intro s₂ f₂ undo h₂
      exact ⟨h₂, rfl⟩
  unfold connectTx
  cases hbase : tx.isCoinBase with
  | true =>
    have hnone : spendingInputs tx = [] := if_pos hbase
    exact hbehind s h (by rw [hnone]; rfl)
  | false =>
    have hvin : spendingInputs tx = tx.vin := by simp [spendingInputs, hbase]
    obtain ⟨hanswer, h₁⟩ := h.haveInputs tx
    change (s.haveInputs tx).1 = flatHaveInputs f.coins tx at hanswer
    simp only [Bool.false_eq_true, if_false]
    change Simulates _ (if (!(s.haveInputs tx).1) = true then none else _)
      (if (!flatHaveInputs f.coins tx) = true then none else _)
    rw [hanswer]
    cases hinputs : flatHaveInputs f.coins tx with
    | false => trivial
    | true => exact hbehind (s.haveInputs tx).2 h₁ (by rw [hvin]; exact modifying_inputs h₁ hbase hinputs)

theorem connectTxs_simulates (h : Stands n below s f) (hnew : ∀ tx ∈ vtx, tx.isCoinBase = false → below tx.hash = none) :
    Simulates (Stands n below) (connectTxs flags nHeight i s vtx) (connectTxs flags nHeight i f vtx) := by
  induction vtx generalizing i s f with
  | nil => exact ⟨h, rfl⟩
  | cons tx vtx ih =>
    rw [List.forall_mem_cons] at hnew
    unfold connectTxs
    apply Simulates.bind (connectTx_simulates h hnew.1)
    intro s₁ f₁ r h₁
    apply Simulates.bind (ih h₁ hnew.2)
    intro s₂ f₂ rs h₂
    exact ⟨h₂, rfl⟩

/-- The view below the cache has no unspent output of the block's transactions, the coinbase apart. -/
def NewBelow (block : CBlock) (below : Uint256 → Option CCoins) : Prop :=
  ∀ tx ∈ block.vtx, tx.isCoinBase = false → below tx.hash = none

theorem connectBlock_simulates (flags : IndexFlags) (rules : Rules) {block : CBlock} (pindex : CBlockIndex)
    (h : Stands n below s f) (hnew : NewBelow block below) :
    Simulates (Stands n below) ((connectBlock flags rules block pindex s).map fun c => (c.view, c.undo, c.updates))
      ((connectBlock flags rules block pindex f).map fun c => (c.view, c.undo, c.updates)) := by
  unfold connectBlock
  rw [h.block]
  change Simulates _ _ (Option.map _ (if _ then none else if pindex.hashPrev ≠ f.hashBlock then none else _))
  split
  · trivial
  · split
    · trivial
    · rw [Option.bind_eq_bind, Option.bind_eq_bind, Option.map_bind, Option.map_bind]
      apply Simulates.bind (connectTxs_simulates h hnew)
      intro s₁ f₁ rs h₁
      dsimp only [Function.comp]
      split
      · trivial
      · exact ⟨h₁.setBestBlock pindex.hash_ne, rfl⟩

end Connect

/-! ## Disconnecting -/

section Disconnect

variable {flags : IndexFlags} {nHeight : Int} {i j : Nat} {tx : CTransaction} {pos : TxPos}

theorem applyTxInUndo_simulates (h : Stands n below s f) (undo : CTxInUndo) (out : COutPoint) :
    (applyTxInUndo undo s out).1 = (applyTxInUndo undo f out).1 ∧
      ((applyTxInUndo undo f out).1 = true → Stands n below (applyTxInUndo undo s out).2 (applyTxInUndo undo f out).2) := by
  unfold applyTxInUndo
  dsimp only
  cases hcoins : f.coins out.hash with
  | some c =>
    rw [h.modifying_some hcoins, modifying_flat_some hcoins]
    refine ⟨rfl, fun _ => h.modifyCoins out.hash _ fun hnone => ?_⟩
    rw [hcoins] at hnone
    cases hnone
  | none =>
    have hpruned := h.modifying_none hcoins
    have hempty : CCoins.empty.isPruned = true := rfl
    rw [modifying_flat_none hcoins]
    unfold applyClean
    by_cases hlast : undo.nHeight ≠ 0
    · simp only [hlast, if_true, hpruned, hempty, ne_eq, not_false_eq_true]
      refine ⟨trivial, fun _ => h.modifyCoins out.hash _ fun _ a _ => ?_⟩
      unfold applyCoins
      simp only [hlast, if_true, ne_eq, not_false_eq_true]
    · simp only [hlast, if_false, hpruned, hempty, Bool.not_true, Bool.false_and, Bool.false_eq_true, false_imp_iff, and_self]

theorem restoreInputs_simulates (flags : IndexFlags) (pos : TxPos) (j : Nat) (rest : List (CTxIn × CTxInUndo))
    (h : Stands n below s f) :
    Simulates (Stands n below) (kept (restoreInputs flags pos j rest s)) (kept (restoreInputs flags pos j rest f)) := by
  induction rest generalizing j with
  | nil => exact ⟨h, rfl⟩
  | cons it rest ih =>
    obtain ⟨input, undo⟩ := it
    -- the clean outcomes of the loop are those of its rest and of this turn
    have hturn {V : Type} [CoinsView V] (view : V) : kept (restoreInputs flags pos j ((input, undo) :: rest) view) =
        (kept (restoreInputs flags pos (j + 1) rest view)).bind fun r =>
          if (applyTxInUndo undo r.1 input.prevout).1 then
            if flags.fAddressIndex then (getOutputFor (applyTxInUndo undo r.1 input.prevout).2 input).bind fun prevout =>
              some ((applyTxInUndo undo r.1 input.prevout).2, r.2 ++ [undoSpending flags pos j input undo (some prevout)])
            else some ((applyTxInUndo undo r.1 input.prevout).2, r.2 ++ [undoSpending flags pos j input undo none])
          else none := by
      rw [restoreInputs]
      cases restoreInputs flags pos (j + 1) rest view with
      | none => rfl
      | some r =>
        obtain ⟨fClean, view₁, us⟩ := r
        simp only [kept, Option.bind_eq_bind, Option.bind_some]
        cases fClean with
        | false =>
          cases flags.fAddressIndex with
          | false => rfl
          | true => cases getOutputFor (applyTxInUndo undo view₁ input.prevout).2 input <;> rfl
        | true =>
          cases hclean : (applyTxInUndo undo view₁ input.prevout).1 with
          | false =>
            cases flags.fAddressIndex with
            | false => simp [hclean]
            | true => cases getOutputFor (applyTxInUndo undo view₁ input.prevout).2 input <;> simp [hclean]
          | true =>
            cases flags.fAddressIndex with
            | false => simp [hclean]
            | true => cases hout : getOutputFor (applyTxInUndo undo view₁ input.prevout).2 input <;> simp [hclean, hout]
    rw [hturn, hturn]
    apply Simulates.bind (ih _)
    intro s₁ f₁ us h₁
    dsimp only
    obtain ⟨hanswer, hafter⟩ := applyTxInUndo_simulates h₁ undo input.prevout
    rw [hanswer]
    cases hclean : (applyTxInUndo undo f₁ input.prevout).1 with
    | false => trivial
    | true =>
      have hafter := hafter hclean
      simp only [if_true]
      rw [hafter.getOutputFor input]
      cases flags.fAddressIndex with
      | false => exact ⟨hafter, rfl⟩
      | true =>
        cases getOutputFor (applyTxInUndo undo f₁ input.prevout).2 input with
        | none => trivial
        | some prevout => exact ⟨hafter, rfl⟩

theorem outputsMatch_pruned {a b : CCoins} (ha : a.isPruned = true) (hb : b.isPruned = true) :
    outputsMatch tx nHeight a = outputsMatch tx nHeight b := by
  have hmatch (c : CCoins) (hc : c.isPruned = true) : outputsMatch tx nHeight c = (CCoins.fromTx tx nHeight).isPruned := by
    have hcleared : c.clearUnspendable.isPruned = true := by
      rw [CCoins.clearUnspendable, CCoins.isPruned_cleanup]
      apply List.all_eq_true.2
      intro out hmem
      obtain ⟨out', hmem', rfl⟩ := List.mem_map.1 hmem
      split
      · rfl
      · exact List.all_eq_true.1 hc out' hmem'
    have hpruned (outs : CCoins) (houts : outs.isPruned = true) :
        outs.beq (CCoins.fromTx tx nHeight) = (CCoins.fromTx tx nHeight).isPruned := by
      unfold CCoins.beq
      rw [houts, Bool.true_and]
      by_cases heq : outs = CCoins.fromTx tx nHeight
      · rw [← heq, houts, Bool.true_or]
      · rw [decide_eq_false heq, Bool.or_false]
    unfold outputsMatch
    dsimp only
    split
    · exact hpruned _ hcleared
    · exact hpruned _ hcleared
  rw [hmatch a ha, hmatch b hb]

theorem disconnectTx_simulates (h : Stands n below s f) (txundo : Option CTxUndo) :
    Simulates (Stands n below) (kept (disconnectTx flags nHeight i tx txundo s))
      (kept (disconnectTx flags nHeight i tx txundo f)) := by
  have hmatch : outputsMatch tx nHeight (modifying s tx.hash) = outputsMatch tx nHeight (modifying f tx.hash) := by
    cases hcoins : f.coins tx.hash with
    | some c => rw [h.modifying_some hcoins, modifying_flat_some hcoins]
    | none => exact outputsMatch_pruned (h.modifying_none hcoins) (by rw [modifying_flat_none hcoins]; rfl)
  have hremoved := h.modifyCoins tx.hash (fun _ => .empty) fun _ _ _ => rfl
  unfold disconnectTx
  rw [hmatch]
  cases txundo with
  | none =>
    cases outputsMatch tx nHeight (modifying f tx.hash) with
    | false => trivial
    | true => exact ⟨hremoved, rfl⟩
  | some vprevout =>
    dsimp only
    split
    · trivial
    · have hrestored := restoreInputs_simulates flags ⟨nHeight, i, tx.hash⟩ 0 (tx.vin.zip vprevout) hremoved
      have hkept {V : Type} [CoinsView V] (view : V) (fClean : Bool) (receiving : List IndexUpdates) :
          kept ((restoreInputs flags ⟨nHeight, i, tx.hash⟩ 0 (tx.vin.zip vprevout) view).bind fun r =>
            some (fClean && r.1, r.2.1, concatUpdates (receiving ++ r.2.2))) =
          (kept (restoreInputs flags ⟨nHeight, i, tx.hash⟩ 0 (tx.vin.zip vprevout) view)).bind fun r =>
            if fClean then some (r.1, concatUpdates (receiving ++ r.2)) else none := by
        cases restoreInputs flags ⟨nHeight, i, tx.hash⟩ 0 (tx.vin.zip vprevout) view with
        | none => rfl
        | some r =>
          obtain ⟨fInputs, view₁, us⟩ := r
          cases fClean <;> cases fInputs <;> rfl
      refine (congrArg₂ (Simulates (Stands n below)) (hkept _ _ _) (hkept _ _ _)).mpr ?_
      apply Simulates.bind hrestored
      intro s₁ f₁ us h₁
      cases outputsMatch tx nHeight (modifying f tx.hash) with
      | false => trivial
      | true => exact ⟨h₁, rfl⟩

theorem disconnectTxs_simulates (rest : List (CTransaction × Option CTxUndo)) (h : Stands n below s f) :
    Simulates (Stands n below) (kept (disconnectTxs flags nHeight i rest s)) (kept (disconnectTxs flags nHeight i rest f)) := by
  induction rest generalizing i with
  | nil => exact ⟨h, rfl⟩
  | cons it rest ih =>
    obtain ⟨tx, txundo⟩ := it
    have hturn {V : Type} [CoinsView V] (view : V) : kept (disconnectTxs flags nHeight i ((tx, txundo) :: rest) view) =
        (kept (disconnectTxs flags nHeight (i + 1) rest view)).bind fun r =>
          (kept (disconnectTx flags nHeight i tx txundo r.1)).bind fun q => some (q.1, r.2.append q.2) := by
      rw [disconnectTxs]
      cases disconnectTxs flags nHeight (i + 1) rest view with
      | none => rfl
      | some r =>
        obtain ⟨fClean, view₁, us⟩ := r
        simp only [kept, Option.bind_eq_bind, Option.bind_some]
        cases fClean with
        | false =>
          cases disconnectTx flags nHeight i tx txundo view₁ <;> rfl
        | true =>
          cases hthis : disconnectTx flags nHeight i tx txundo view₁ with
          | none => simp [hthis]
          | some q =>
            obtain ⟨fTx, view₂, u⟩ := q
            cases fTx <;> simp [hthis]
    rw [hturn, hturn]
    apply Simulates.bind ih
    intro s₁ f₁ us h₁
    apply Simulates.bind (disconnectTx_simulates h₁ txundo)
    intro s₂ f₂ u h₂
    exact ⟨h₂, rfl⟩

theorem disconnectBlock_simulates (flags : IndexFlags) (block : CBlock) (pindex : CBlockIndex) (stored : List (List StoredInput))
    (h : Stands n below s f) :
    Simulates (Stands n below) (kept ((disconnectBlock flags block pindex stored s).map fun d => (d.fClean, d.view, d.updates)))
      (kept ((disconnectBlock flags block pindex stored f).map fun d => (d.fClean, d.view, d.updates))) := by
  unfold disconnectBlock
  rw [h.block]
  change Simulates _ _ (kept (Option.map _ (if pindex.hash ≠ f.hashBlock then none else _)))
  split
  · trivial
  · cases CBlockUndo.read stored with
    | none => trivial
    | some blockUndo =>
      simp only [Option.bind_eq_bind, Option.bind_some]
      split
      · trivial
      · have hkept {V : Type} [CoinsView V] (view : V) (rest : List (CTransaction × Option CTxUndo)) :
            kept (((disconnectTxs flags pindex.nHeight 0 rest view).bind fun r =>
              some (⟨r.1, setBestBlock r.2.1 pindex.hashPrev, r.2.2⟩ : Disconnected V)).map fun d =>
                (d.fClean, d.view, d.updates)) =
            (kept (disconnectTxs flags pindex.nHeight 0 rest view)).bind fun r =>
              some (setBestBlock r.1 pindex.hashPrev, r.2) := by
          cases disconnectTxs flags pindex.nHeight 0 rest view with
          | none => rfl
          | some r =>
            obtain ⟨fClean, view₁, u⟩ := r
            cases fClean <;> rfl
        refine (congrArg₂ (Simulates (Stands n below)) (hkept _ _) (hkept _ _)).mpr ?_
        apply Simulates.bind (disconnectTxs_simulates _ h)
        intro s₁ f₁ u h₁
        exact ⟨h₁.setBestBlock pindex.hashPrev_ne, rfl⟩

end Disconnect

/-! ## A block, connected and disconnected -/

section Block

variable {flags : IndexFlags} {rules : Rules} {block : CBlock} {pindex : CBlockIndex}

structure Stack (s : View) : Prop where
  coherent : s.Coherent
  caches : s.caches ≠ []

theorem Stack.stands (h : Stack s) : Stands s.caches.length (contents s.db s.caches.tail) s ⟨s.contents, getBestBlock s⟩ := by
  obtain ⟨c, cs, hcaches⟩ := List.exists_cons_of_ne_nil h.caches
  exact ⟨h.coherent, rfl, rfl, ⟨c, cs, hcaches, by rw [hcaches]; rfl⟩, rfl⟩

/-- `DisconnectBlock` of the stack `t`, with the undo data, finds nothing wrong and leaves what
    the stack `s` has. -/
def StackRestores (flags : IndexFlags) (block : CBlock) (pindex : CBlockIndex) (stored : List (List StoredInput))
    (s t : View) : Prop :=
  ∃ d, disconnectBlock flags block pindex stored t = some d ∧ d.fClean = true ∧ d.view.contents = s.contents ∧
    getBestBlock d.view = getBestBlock s

theorem connectBlock_stands {c : Connected View} (h : Stands n below s f) (hnew : NewBelow block below)
    (hc : connectBlock flags rules block pindex s = some c) :
    ∃ c' : Connected FlatView, connectBlock flags rules block pindex f = some c' ∧ Stands n below c.view c'.view ∧
      c'.undo = c.undo ∧
      c'.updates = c.updates := by
  have hboth := connectBlock_simulates flags rules pindex h hnew
  rw [hc] at hboth
  obtain ⟨f', hf', hstands⟩ := hboth.of_left rfl
  obtain ⟨c', hc', heq⟩ := Option.map_eq_some_iff.1 hf'
  obtain ⟨rfl, hrest⟩ := Prod.mk.inj heq
  obtain ⟨hundo, hupdates⟩ := Prod.mk.inj hrest
  exact ⟨c', hc', hstands, hundo, hupdates⟩

/-- It is disconnected from a stack just where it is from the flat map the stack stands for. -/
theorem stackRestores_iff {t : View} {c' : Connected FlatView} (ht : Stands n below t c'.view) (hs : s.contents = f.coins)
    (hb : getBestBlock s = f.hashBlock) :
    StackRestores flags block pindex c'.undo s t ↔ Restores flags block pindex f c' := by
  have hboth := disconnectBlock_simulates flags block pindex c'.undo ht
  unfold StackRestores Restores
  constructor
  · rintro ⟨⟨fClean, view', u⟩, hd, hclean, hcoins, hblock⟩
    dsimp only at hclean hcoins hblock
    subst hclean
    rw [hd] at hboth
    obtain ⟨f', hf', hstands⟩ := hboth.of_left rfl
    obtain ⟨⟨fClean', view'', u'⟩, hd', heq⟩ := Option.map_eq_some_iff.1 (kept_eq_some.1 hf')
    cases heq
    refine ⟨_, hd', rfl, ?_⟩
    obtain ⟨m, b⟩ := f
    obtain ⟨m', b'⟩ := view''
    dsimp only at hs hb ⊢
    rw [← hs, ← hb, ← hcoins, ← hblock, hstands.coins, hstands.block]
  · rintro ⟨⟨fClean, view', u⟩, hd, hclean, hview⟩
    dsimp only at hclean hview
    subst hclean hview
    rw [hd] at hboth
    obtain ⟨s', hs', hstands⟩ := hboth.of_right rfl
    obtain ⟨⟨fClean', view'', u'⟩, hd', heq⟩ := Option.map_eq_some_iff.1 (kept_eq_some.1 hs')
    cases heq
    exact ⟨_, hd', rfl, hstands.coins.trans hs.symm, hstands.block.trans hb.symm⟩

end Block

/-! ## A coinbase that is restored, and one that is lost -/

namespace Sample

def coinbase : CTransaction := { vin := [⟨.null, [1, 1], 0⟩], vout := [⟨50, []⟩], hash := 7, nVersion := 1 }

def genesis : FlatView := ⟨fun _ => none, 1⟩

def database : CCoinsViewDB where
  coins := ∅
  hashBestBlock := 1
  unpruned txid c h := by simp at h

def stack : View := (start 1 database).1

def view : FlatView := ⟨Function.update (fun _ => none) 7 (some (CCoins.fromTx coinbase 1)), 1⟩

def block : CBlock := ⟨2, 1, [coinbase]⟩

def pindex : CBlockIndex := ⟨2, 1, 2, by decide, by decide, by decide⟩

def flags : IndexFlags := ⟨false, false⟩

def rules : Rules := fun _ _ => true

theorem view_coins : ChainCoins view.coins :=
  chainCoins_single ⟨⟨by unfold Exact; decide, by decide⟩, by decide, by decide⟩ (by decide)

theorem stack_coherent : Stack stack := ⟨(start_coherent 1 database).1, by decide⟩

theorem stack_contents : stack.contents = fun _ => none := by
  funext txid
  refine (congrFun (start_coherent 1 database).2 txid).trans ?_
  simp [start, database]

theorem no_coins : ChainCoins fun _ => none where
  tidy _ _ h := nomatch h
  height _ _ h := nomatch h

end Sample

end Zumy.Blocks
