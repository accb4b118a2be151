/-
  Zumy.Blocks.Undo — a block is disconnected from the coins it was connected to.

  Each turn of `DisconnectBlock` that finds nothing wrong is the inverse of `ConnectBlock`'s:
  it gives back the coins before the turn just where it starts from the coins behind it and
  the transaction met its condition. So the whole block does.

  (1) The outputs (`remove_outputs_iff`): nothing is restored of coins they replaced.
  (2) One transaction, and the loop over them (`disconnectTx_iff`, `disconnectTxs_iff`).
  (3) The block (`restores_iff`), on the flat map.
-/
import Zumy.Blocks.Inputs

namespace Zumy.Blocks

open Zumy.Coins Zumy.Lib CoinsView

/-! ## A transaction -/

section Tx

variable {m m' X : Uint256 → Option CCoins} {b b' : Uint256} {patched : Uint256 → Bool} {tx : CTransaction} {nHeight : Int}

@[simp] theorem fromTx_nVersion : (CCoins.fromTx tx nHeight).nVersion = tx.nVersion := rfl

/-- What `CCoins` keeps of an output: nothing, if it can never be spent. -/
def spendable (out : CTxOut) : CTxOut := if isUnspendable out.scriptPubKey then .null else out

theorem fromTx_vout : (CCoins.fromTx tx nHeight).vout = (tx.vout.map spendable).rdropWhile CTxOut.isNull := rfl

theorem isNull_spendable {out : CTxOut} (hv : 0 ≤ out.nValue) : (spendable out).isNull = isUnspendable out.scriptPubKey := by
  unfold spendable
  cases isUnspendable out.scriptPubKey with
  | true => rfl
  | false =>
    rw [if_neg Bool.false_ne_true, ← Bool.not_eq_true]
    intro hnull
    have hvalue : out.nValue = -1 := eq_of_beq hnull
    exact absurd (hvalue ▸ hv) (by decide)

theorem exact_spendable (hv : ∀ out ∈ tx.vout, 0 ≤ out.nValue) : Exact CTxOut.isNull .null (tx.vout.map spendable) := by
  intro out hmem hnull
  obtain ⟨out', hmem', rfl⟩ := List.mem_map.1 hmem
  rw [isNull_spendable (hv out' hmem')] at hnull
  exact if_pos hnull

theorem fromTx_outputs (hv : ∀ out ∈ tx.vout, 0 ≤ out.nValue) : Trimmed CTxOut.isNull .null (CCoins.fromTx tx nHeight).vout ∧
    ∀ out ∈ (CCoins.fromTx tx nHeight).vout, isUnspendable out.scriptPubKey = false := by
  rw [fromTx_vout]
  constructor
  · exact trimmed_rdropWhile (exact_spendable hv)
  · intro out hmem
    obtain ⟨out', -, rfl⟩ := List.mem_map.1 (mem_rdropWhile hmem)
    unfold spendable
    split
    · rfl
    · next hspendable => simpa using hspendable

theorem fromTx_unspent (hv : ∀ out ∈ tx.vout, 0 ≤ out.nValue) {c : CCoins} (h : (CCoins.fromTx tx nHeight).unspent = some c) :
    c = CCoins.fromTx tx nHeight ∧ Tidy c := by
  obtain ⟨hunspent, rfl⟩ := CCoins.unspent_eq_some_iff.1 h
  exact ⟨rfl, (fromTx_outputs hv).1, (fromTx_outputs hv).2, hunspent⟩

theorem modified_fromTx (hv : ∀ out ∈ tx.vout, 0 ≤ out.nValue) (a : Option CCoins) :
    CCoins.modified (fun _ => .fromTx tx nHeight) a = (CCoins.fromTx tx nHeight).unspent := by
  rw [CCoins.modified, cleanup_of_trimmed (fromTx_outputs hv).1]

theorem clearUnspendable_of_tidy {c : CCoins} (h : Tidy c) : c.clearUnspendable = c := by
  obtain ⟨fCoinBase, vout, nHeight, nVersion⟩ := c
  have hmap : (vout.map fun out => if isUnspendable out.scriptPubKey then CTxOut.null else out) = vout := by
    refine (List.map_congr_left fun out hmem => ?_).trans (List.map_id vout)
    rw [h.spendable out hmem]
    rfl
  rw [CCoins.clearUnspendable]
  dsimp only
  rw [hmap]
  exact cleanup_of_trimmed h.vout

/-- `DisconnectBlock` finds the outputs as in the block just where the coins are those it
    connected, but for a negative version. -/
theorem outputsMatch_iff (a : Option CCoins) (ha : ∀ c, a = some c → Tidy c) :
    outputsMatch tx nHeight (a.getD .empty) = true ↔ SameBut (decide (tx.nVersion < 0)) a (CCoins.fromTx tx nHeight).unspent := by
  unfold outputsMatch
  dsimp only
  rw [fromTx_nVersion]
  cases a with
  | none =>
    have hempty : CCoins.empty.clearUnspendable = CCoins.empty := by decide
    have hpruned (n : Int) : ({ CCoins.empty with nVersion := n } : CCoins).isPruned = true := rfl
    rw [Option.getD_none, hempty, sameBut_none_left, CCoins.unspent_eq_none_iff, CCoins.beq]
    constructor
    · intro h
      rcases Bool.or_eq_true_iff.1 h with h | h
      · exact (Bool.and_eq_true_iff.1 h).2
      · rw [← of_decide_eq_true h]
        split
        · exact hpruned _
        · rfl
    · intro h
      rw [h, Bool.and_true]
      split
      · rw [hpruned, Bool.true_or]
      · rfl
  | some c =>
    have hc := ha c rfl
    have hunspent (n : Int) : ({ c with nVersion := n } : CCoins).isPruned = false := hc.unspent
    rw [Option.getD_some, clearUnspendable_of_tidy hc, CCoins.beq]
    cases hpruned : (CCoins.fromTx tx nHeight).isPruned with
    | true =>
      rw [CCoins.unspent_of_pruned hpruned, sameBut_none_right]
      constructor
      · intro h
        exfalso
        split at h
        · rw [hunspent, Bool.false_and, Bool.false_or] at h
          rw [← of_decide_eq_true h, hunspent] at hpruned
          cases hpruned
        · rw [hc.unspent, Bool.false_and, Bool.false_or] at h
          rw [← of_decide_eq_true h, hc.unspent] at hpruned
          cases hpruned
      · intro h
        cases h
    | false =>
      rw [CCoins.unspent_of_not_pruned hpruned, Bool.and_false, Bool.false_or, decide_eq_true_iff, SameBut]
      have hversion : (CCoins.fromTx tx nHeight).nVersion = tx.nVersion := rfl
      generalize CCoins.fromTx tx nHeight = outsBlock at hversion ⊢
      obtain ⟨fCoinBase, vout, nHeight', nVersion⟩ := outsBlock
      obtain ⟨fCoinBase', vout', nHeight'', nVersion'⟩ := c
      dsimp only at hversion
      by_cases hneg : tx.nVersion < 0
      · simp [hneg, hversion]
      · simp [hneg]

/-- The transactions of the block whose version `DisconnectBlock` sets. -/
def patch (patched : Uint256 → Bool) (tx : CTransaction) : Uint256 → Bool :=
  Function.update patched tx.hash (decide (tx.nVersion < 0))

/-- The outputs of a transaction are found and removed, and the coins before they were added
    are left, just where they replaced no coins. -/
theorem remove_outputs_iff (patched : Uint256 → Bool) (tx : CTransaction) (nHeight : Int) (hX : TidyCoins X) :
    (outputsMatch tx nHeight ((X tx.hash).getD .empty) = true ∧ Same patched (Function.update X tx.hash none) m) ↔
      Same (patch patched tx) X (Function.update m tx.hash (CCoins.fromTx tx nHeight).unspent) ∧ m tx.hash = none := by
  rw [same_update_left, same_update_right, outputsMatch_iff _ (hX _), sameBut_none_left]
  have hpatch : patch patched tx tx.hash = decide (tx.nVersion < 0) := Function.update_self ..
  have hrest : (∀ k, k ≠ tx.hash → SameBut (patch patched tx k) (X k) (m k)) ↔ ∀ k, k ≠ tx.hash →
    SameBut (patched k) (X k) (m k) := by
    refine forall_congr' fun k => forall_congr' fun hk => ?_
    rw [patch, Function.update_of_ne hk]
  rw [hpatch, hrest]
  exact ⟨fun h => ⟨⟨h.1, h.2.2⟩, h.2.1⟩, fun h => ⟨h.1.1, h.2, h.1.2⟩⟩

theorem connectTx_some {V : Type} [CoinsView V] {flags : IndexFlags} {i : Nat} {view view' : V} {r : TxResult}
    (h : connectTx flags nHeight i view tx = some (view', r)) :
    ∃ view₁ prevouts, (if tx.isCoinBase then (true, view) else haveInputs view tx) = (true, view₁) ∧
      (spendingInputs tx).mapM (getOutputFor view₁) = some prevouts ∧ updateCoins view₁ tx nHeight = some (view', r.undo) ∧
      r.updates = connectUpdates flags ⟨nHeight, i, tx.hash⟩ tx prevouts := by
  unfold connectTx at h
  split at h
  next fHave view₁ hstart =>
    split at h
    · cases h
    · next hhave =>
      obtain ⟨prevouts, hprevouts, h⟩ := Option.bind_eq_some_iff.1 h
      obtain ⟨⟨view₂, undo⟩, hupdate, h⟩ := Option.bind_eq_some_iff.1 h
      cases h
      have htrue : fHave = true := by simpa using hhave
      rw [htrue] at hstart
      exact ⟨view₁, prevouts, hstart, hprevouts, hupdate, rfl⟩

def flatTx (nHeight : Int) (m : Uint256 → Option CCoins) (tx : CTransaction) : Uint256 → Option CCoins :=
  Function.update (flatSpend m (spendingInputs tx)) tx.hash (CCoins.fromTx tx nHeight).unspent

theorem haveInputs_flat {view₁ : FlatView}
    (h : (if tx.isCoinBase then (true, (⟨m, b⟩ : FlatView)) else haveInputs (⟨m, b⟩ : FlatView) tx) = (true, view₁)) :
    view₁ = ⟨m, b⟩ := by
  split at h
  · cases h
    rfl
  · exact (congrArg Prod.snd h).symm

theorem updateCoins_flat {view' : FlatView} {undo : CTxUndo} (hv : ∀ out ∈ tx.vout, 0 ≤ out.nValue)
    (h : updateCoins (⟨m, b⟩ : FlatView) tx nHeight = some (view', undo)) :
    ∃ view₁, spendInputs (⟨m, b⟩ : FlatView) (spendingInputs tx) = some (view₁, undo) ∧
      view' = ⟨Function.update view₁.coins tx.hash (CCoins.fromTx tx nHeight).unspent, view₁.hashBlock⟩ := by
  unfold updateCoins at h
  unfold spendingInputs
  split at h
  · next hbase =>
    cases h
    refine ⟨⟨m, b⟩, by rw [if_pos hbase]; rfl, ?_⟩
    simp only [modifyCoins, flatModify, modified_fromTx hv]
  · next hbase =>
    obtain ⟨⟨view₁, undo⟩, hspend, h⟩ := Option.bind_eq_some_iff.1 h
    cases h
    refine ⟨view₁, by rw [if_neg hbase]; exact hspend, ?_⟩
    simp only [modifyNewCoins, flatNew, modified_fromTx hv]

theorem chainCoins_flatTx {coins : Uint256 → Option CCoins} (hm : ChainCoins coins) (hv : ∀ out ∈ tx.vout, 0 ≤ out.nValue)
    (hpos : 0 < nHeight) :
    ChainCoins (Function.update coins tx.hash (CCoins.fromTx tx nHeight).unspent) := by
  have hnew (k : Uint256) (c : CCoins) (hk : Function.update coins tx.hash (CCoins.fromTx tx nHeight).unspent k = some c) :
      Tidy c ∧ 0 < c.nHeight := by
    rw [Function.update_apply] at hk
    split at hk
    · obtain ⟨rfl, htidy⟩ := fromTx_unspent hv hk
      exact ⟨htidy, hpos⟩
    · exact ⟨hm.tidy k c hk, hm.height k c hk⟩
  exact ⟨fun k c hk => (hnew k c hk).1, fun k c hk => (hnew k c hk).2⟩

def undoRead (tx : CTransaction) (undo : CTxUndo) : Option CTxUndo :=
  if tx.isCoinBase then none else some (undo.map CTxInUndo.readBack)

/-- The versions of the inputs' coins come back, and the outputs replace no coins. -/
def TxRestorable (patched : Uint256 → Bool) (m : Uint256 → Option CCoins) (tx : CTransaction) : Prop :=
  InputsKept patched m (spendingInputs tx) ∧ flatSpend m (spendingInputs tx) tx.hash = none

theorem tidy_removed (hX : TidyCoins X) (txid : Uint256) : TidyCoins (Function.update X txid none) := by
  intro k c hk
  rw [Function.update_apply] at hk
  split at hk
  · cases hk
  · exact hX k c hk

theorem connectTx_flat {flags : IndexFlags} {i : Nat} {view' : FlatView} {r : TxResult} (hm : ChainCoins m)
    (hv : ∀ out ∈ tx.vout, 0 ≤ out.nValue) (hpos : 0 < nHeight)
    (h : connectTx flags nHeight i (⟨m, b⟩ : FlatView) tx = some (view', r)) :
    spendInputs (⟨m, b⟩ : FlatView) (spendingInputs tx) = some (⟨flatSpend m (spendingInputs tx), b⟩, r.undo) ∧
      view' = ⟨flatTx nHeight m tx, b⟩ ∧ ChainCoins (flatTx nHeight m tx) ∧
        ∀ u ∈ r.undo.map CTxInUndo.readBack, CanPutBack u := by
  obtain ⟨view₁, prevouts, hstart, -, hupdate, -⟩ := connectTx_some h
  obtain rfl := haveInputs_flat hstart
  obtain ⟨view₂, hspend, rfl⟩ := updateCoins_flat hv hupdate
  obtain ⟨hcoins, rfl, -, hundo⟩ := spendInputs_flat hm hspend
  exact ⟨hspend, rfl, chainCoins_flatTx hcoins hv hpos, hundo⟩

section Disconnect

variable {flags : IndexFlags} {i : Nat}

/-- A turn of `DisconnectBlock`: the outputs are removed, then the inputs restored. -/
theorem disconnectTx_some {V : Type} [CoinsView V] {undo : CTxUndo} {view view' : V} {fClean : Bool}
    (hlength : undo.length = (spendingInputs tx).length) :
    (∃ u, disconnectTx flags nHeight i tx (undoRead tx undo) view = some (fClean, view', u)) ↔
      ∃ f, (∃ us, restoreInputs flags ⟨nHeight, i, tx.hash⟩ 0 ((spendingInputs tx).zip (undo.map CTxInUndo.readBack))
          (modifyCoins view tx.hash fun _ => .empty) = some (f, view', us)) ∧
        fClean = (outputsMatch tx nHeight (modifying view tx.hash) && f) := by
  unfold disconnectTx undoRead
  unfold spendingInputs at hlength ⊢
  cases hbase : tx.isCoinBase with
  | true =>
    simp only [if_true, List.zip_nil_left, restoreInputs, Option.some.injEq, Prod.mk.injEq]
    constructor
    · rintro ⟨u, rfl, rfl, -⟩
      exact ⟨true, ⟨[], rfl, rfl, rfl⟩, by rw [Bool.and_true]⟩
    · rintro ⟨f, ⟨us, rfl, rfl, -⟩, rfl⟩
      exact ⟨_, by rw [Bool.and_true], rfl, rfl⟩
  | false =>
    rw [hbase] at hlength
    simp only [Bool.false_eq_true, if_false, List.length_map, hlength, ne_eq, not_true_eq_false]
    constructor
    · rintro ⟨u, h⟩
      obtain ⟨⟨f, view₁, us⟩, hrestore, h⟩ := Option.bind_eq_some_iff.1 h
      cases h
      exact ⟨f, ⟨us, hrestore⟩, rfl⟩
    · rintro ⟨f, ⟨us, hrestore⟩, rfl⟩
      rw [hrestore]
      exact ⟨_, rfl⟩

theorem disconnectTx_tidy {undo : CTxUndo} {view' : FlatView} {fClean : Bool} {u : IndexUpdates} (hX : TidyCoins X)
    (hlength : undo.length = (spendingInputs tx).length) (hundo : ∀ u ∈ undo.map CTxInUndo.readBack, CanPutBack u)
    (h : disconnectTx flags nHeight i tx (undoRead tx undo) (⟨X, b⟩ : FlatView) = some (fClean, view', u)) :
    TidyCoins view'.coins ∧ view'.hashBlock = b := by
  obtain ⟨f, ⟨us, hrestore⟩, -⟩ := (disconnectTx_some hlength).1 ⟨u, h⟩
  exact restoreInputs_tidy (tidy_removed hX tx.hash) (fun it hit => hundo it.2 (List.of_mem_zip hit).2) hrestore

/-- A turn gives back the coins before the transaction, just where it starts from those behind
    it and the transaction met its condition. -/
theorem disconnectTx_iff (patched : Uint256 → Bool) (b' : Uint256) {view' : FlatView} {r : TxResult}
    (hm : ChainCoins m) (hX : TidyCoins X) (hv : ∀ out ∈ tx.vout, 0 ≤ out.nValue)
    (hpos : 0 < nHeight) (h : connectTx flags nHeight i (⟨m, b⟩ : FlatView) tx = some (view', r)) :
    (∃ Y, (∃ u, disconnectTx flags nHeight i tx (undoRead tx r.undo) (⟨X, b'⟩ : FlatView) = some (true, Y, u)) ∧
      Same patched Y.coins m) ↔
      Same (patch patched tx) X view'.coins ∧ TxRestorable patched m tx := by
  obtain ⟨hspend, rfl, -, -⟩ := connectTx_flat hm hv hpos h
  obtain ⟨-, -, hlength, -⟩ := spendInputs_flat hm hspend
  have hinputs := restoreInputs_iff patched b' flags ⟨nHeight, i, tx.hash⟩ 0 hm (tidy_removed hX tx.hash) hspend
  have hremoved : modifyCoins (⟨X, b'⟩ : FlatView) tx.hash (fun _ => .empty) = ⟨Function.update X tx.hash none, b'⟩ := rfl
  have hmatch : outputsMatch tx nHeight (modifying (⟨X, b'⟩ : FlatView) tx.hash) =
    outputsMatch tx nHeight ((X tx.hash).getD .empty) := rfl
  have houtputs := remove_outputs_iff patched tx nHeight (m := flatSpend m (spendingInputs tx)) hX
  have hright : (Same (patch patched tx) X (flatTx nHeight m tx) ∧ TxRestorable patched m tx) ↔
      outputsMatch tx nHeight ((X tx.hash).getD .empty) = true ∧
        Same patched (Function.update X tx.hash none) (flatSpend m (spendingInputs tx)) ∧
          InputsKept patched m (spendingInputs tx) := by
    rw [← and_assoc, houtputs, TxRestorable, flatTx]
    exact ⟨fun h => ⟨⟨h.1, h.2.2⟩, h.2.1⟩, fun h => ⟨h.1.1, h.2, h.1.2⟩⟩
  rw [hright, ← hinputs]
  constructor
  · rintro ⟨Y, hY, hsame⟩
    obtain ⟨f, hrestore, hboth⟩ := (disconnectTx_some hlength).1 hY
    obtain ⟨hfound, rfl⟩ := Bool.and_eq_true_iff.1 hboth.symm
    rw [hremoved] at hrestore
    exact ⟨hmatch ▸ hfound, Y, hrestore, hsame⟩
  · rintro ⟨hfound, Y, hrestore, hsame⟩
    rw [← hremoved] at hrestore
    exact ⟨Y, (disconnectTx_some hlength).2 ⟨true, hrestore, by rw [hmatch, hfound]; rfl⟩, hsame⟩

end Disconnect

end Tx

/-! ## The transactions of a block -/

section Txs

variable {m m' X : Uint256 → Option CCoins} {b b' : Uint256} {patched : Uint256 → Bool} {vtx : List CTransaction} {nHeight : Int}
variable {flags : IndexFlags} {i : Nat}

/-- Every transaction meets its condition, on the coins behind those before it. -/
def TxsRestorable (nHeight : Int) : (Uint256 → Bool) → (Uint256 → Option CCoins) → List CTransaction → Prop
  | _, _, [] => True
  | patched, m, tx :: vtx => TxRestorable patched m tx ∧ TxsRestorable nHeight (patch patched tx) (flatTx nHeight m tx) vtx

def flatTxs (nHeight : Int) (m : Uint256 → Option CCoins) (vtx : List CTransaction) : Uint256 → Option CCoins :=
  vtx.foldl (flatTx nHeight) m

def undoReads (vtx : List CTransaction) (rs : List TxResult) : List (CTransaction × Option CTxUndo) :=
  (vtx.zip rs).map fun it => (it.1, undoRead it.1 it.2.undo)

theorem connectTxs_cons {V : Type} [CoinsView V] {tx : CTransaction} {view view' : V} {rs : List TxResult}
    (h : connectTxs flags nHeight i view (tx :: vtx) = some (view', rs)) :
    ∃ view₁ r rs', connectTx flags nHeight i view tx = some (view₁, r) ∧
      connectTxs flags nHeight (i + 1) view₁ vtx = some (view', rs') ∧
      rs = r :: rs' := by
  unfold connectTxs at h
  obtain ⟨⟨view₁, r⟩, htx, h⟩ := Option.bind_eq_some_iff.1 h
  obtain ⟨⟨view₂, rs'⟩, hrest, h⟩ := Option.bind_eq_some_iff.1 h
  cases h
  exact ⟨view₁, r, rs', htx, hrest, rfl⟩

theorem disconnectTxs_cons {V : Type} [CoinsView V] {tx : CTransaction} {txundo : Option CTxUndo}
    {rest : List (CTransaction × Option CTxUndo)}
    {view view' : V} {fClean : Bool} :
    (∃ u, disconnectTxs flags nHeight i ((tx, txundo) :: rest) view = some (fClean, view', u)) ↔
      ∃ f₁ view₁ f₂, (∃ u, disconnectTxs flags nHeight (i + 1) rest view = some (f₁, view₁, u)) ∧
        (∃ u, disconnectTx flags nHeight i tx txundo view₁ = some (f₂, view', u)) ∧ fClean = (f₁ && f₂) := by
  constructor
  · rintro ⟨u, h⟩
    unfold disconnectTxs at h
    obtain ⟨⟨f₁, view₁, us⟩, hrest, h⟩ := Option.bind_eq_some_iff.1 h
    obtain ⟨⟨f₂, view₂, u₂⟩, htx, h⟩ := Option.bind_eq_some_iff.1 h
    cases h
    exact ⟨f₁, view₁, f₂, ⟨us, hrest⟩, ⟨u₂, htx⟩, rfl⟩
  · rintro ⟨f₁, view₁, f₂, ⟨us, hrest⟩, ⟨u₂, htx⟩, rfl⟩
    unfold disconnectTxs
    rw [hrest, Option.bind_eq_bind, Option.bind_some]
    dsimp only
    rw [htx]
    exact ⟨_, rfl⟩

theorem connectTxs_flat {view' : FlatView} {rs : List TxResult} (hm : ChainCoins m)
    (hv : ∀ tx ∈ vtx, ∀ out ∈ tx.vout, 0 ≤ out.nValue)
    (hpos : 0 < nHeight) (h : connectTxs flags nHeight i (⟨m, b⟩ : FlatView) vtx = some (view', rs)) :
    view' = ⟨flatTxs nHeight m vtx, b⟩ ∧ ChainCoins (flatTxs nHeight m vtx) ∧ rs.length = vtx.length := by
  induction vtx generalizing i m rs with
  | nil =>
    cases h
    exact ⟨rfl, hm, rfl⟩
  | cons tx vtx ih =>
    rw [List.forall_mem_cons] at hv
    obtain ⟨view₁, r, rs', htx, hrest, rfl⟩ := connectTxs_cons h
    obtain ⟨-, rfl, hcoins, -⟩ := connectTx_flat hm hv.1 hpos htx
    obtain ⟨hview, hcoins', hlength⟩ := ih hcoins hv.2 hrest
    exact ⟨hview, hcoins', by simp [hlength]⟩

theorem disconnectTxs_tidy {view' view'' : FlatView} {rs : List TxResult} {fClean : Bool} {u : IndexUpdates}
    (hm : ChainCoins m) (hX : TidyCoins X)
    (hv : ∀ tx ∈ vtx, ∀ out ∈ tx.vout, 0 ≤ out.nValue) (hpos : 0 < nHeight)
    (h : connectTxs flags nHeight i (⟨m, b⟩ : FlatView) vtx = some (view', rs))
    (hback : disconnectTxs flags nHeight i (undoReads vtx rs) (⟨X, b'⟩ : FlatView) = some (fClean, view'', u)) :
    TidyCoins view''.coins ∧ view''.hashBlock = b' := by
  induction vtx generalizing i m rs fClean view'' u with
  | nil =>
    cases h
    cases hback
    exact ⟨hX, rfl⟩
  | cons tx vtx ih =>
    rw [List.forall_mem_cons] at hv
    obtain ⟨view₁, r, rs', htx, hrest, rfl⟩ := connectTxs_cons h
    obtain ⟨hspend, rfl, hcoins, hundo⟩ := connectTx_flat hm hv.1 hpos htx
    obtain ⟨f₁, ⟨X₁, b₁⟩, f₂, ⟨u₁, hlater⟩, ⟨u₂, hthis⟩, -⟩ := disconnectTxs_cons.1 ⟨u, hback⟩
    obtain ⟨hX₁, hb₁⟩ := ih hcoins hv.2 hrest hlater
    cases hb₁
    exact disconnectTx_tidy hX₁ (spendInputs_flat hm hspend).2.2.1 hundo hthis

/-- The loop over the transactions. The induction is on them: those behind the first are
    disconnected before it, to the coins that were there once it was connected. -/
theorem disconnectTxs_iff (patched : Uint256 → Bool) (b' : Uint256) {view' : FlatView} {rs : List TxResult}
    (hm : ChainCoins m) (hX : TidyCoins X)
    (hv : ∀ tx ∈ vtx, ∀ out ∈ tx.vout, 0 ≤ out.nValue) (hpos : 0 < nHeight)
    (h : connectTxs flags nHeight i (⟨m, b⟩ : FlatView) vtx = some (view', rs)) :
    (∃ Y, (∃ u, disconnectTxs flags nHeight i (undoReads vtx rs) (⟨X, b'⟩ : FlatView) = some (true, Y, u)) ∧
      Same patched Y.coins m) ↔
      Same (vtx.foldl patch patched) X view'.coins ∧ TxsRestorable nHeight patched m vtx := by
  induction vtx generalizing i m rs patched with
  | nil =>
    cases h
    simp [undoReads, disconnectTxs, TxsRestorable]
  | cons tx vtx ih =>
    rw [List.forall_mem_cons] at hv
    obtain ⟨view₁, r, rs', htx, hrest, rfl⟩ := connectTxs_cons h
    have hflat := connectTx_flat hm hv.1 hpos htx
    obtain ⟨-, rfl, hcoins, -⟩ := hflat
    have hone (X₁ : Uint256 → Option CCoins) (hX₁ : TidyCoins X₁) := disconnectTx_iff patched b' hm hX₁ hv.1 hpos htx
    have hreads : undoReads (tx :: vtx) (r :: rs') = (tx, undoRead tx r.undo) :: undoReads vtx rs' := rfl
    rw [hreads, TxsRestorable, List.foldl_cons, and_left_comm, ← ih _ hcoins hv.2 hrest]
    constructor
    · rintro ⟨Y, hY, hsame⟩
      obtain ⟨f₁, ⟨X₁, b₁⟩, f₂, hlater, hthis, hboth⟩ := disconnectTxs_cons.1 hY
      obtain ⟨u, hu⟩ := hlater
      obtain ⟨hX₁, hb₁⟩ := disconnectTxs_tidy hcoins hX hv.2 hpos hrest hu
      cases hb₁
      obtain ⟨rfl, rfl⟩ := Bool.and_eq_true_iff.1 hboth.symm
      obtain ⟨hsame₁, hcond⟩ := (hone X₁ hX₁).1 ⟨Y, hthis, hsame⟩
      exact ⟨hcond, _, ⟨u, hu⟩, hsame₁⟩
    · rintro ⟨hcond, ⟨X₁, b₁⟩, ⟨u, hu⟩, hsame₁⟩
      obtain ⟨hX₁, hb₁⟩ := disconnectTxs_tidy hcoins hX hv.2 hpos hrest hu
      cases hb₁
      obtain ⟨Y, hthis, hsame⟩ := (hone X₁ hX₁).2 ⟨hsame₁, hcond⟩
      exact ⟨Y, disconnectTxs_cons.2 ⟨true, _, true, ⟨u, hu⟩, hthis, rfl⟩, hsame⟩

end Txs

/-! ## A block -/

section Block

variable {flags : IndexFlags} {rules : Rules} {block : CBlock} {pindex : CBlockIndex}

theorem connectBlock_some {V : Type} [CoinsView V] {view : V} {c : Connected V}
    (h : connectBlock flags rules block pindex view = some c) :
    checkBlock block = true ∧ pindex.hashPrev = getBestBlock view ∧
      ∃ view' rs, connectTxs flags pindex.nHeight 0 view block.vtx = some (view', rs) ∧
      rules block (rs.map TxResult.spent) = true ∧
      c = ⟨setBestBlock view' pindex.hash, CBlockUndo.write ((rs.drop 1).map TxResult.undo),
        concatUpdates (rs.map TxResult.updates)⟩ := by
  unfold connectBlock at h
  split at h
  · cases h
  · next hcheck =>
    split at h
    · cases h
    · next hprev =>
      obtain ⟨⟨view', rs⟩, htxs, h⟩ := Option.bind_eq_some_iff.1 h
      dsimp only at h
      split at h
      · cases h
      · next hrules =>
        cases h
        exact ⟨by simpa using hcheck, not_not.1 hprev, view', rs, htxs, by simpa using hrules, rfl⟩

theorem checkTransaction_values {tx : CTransaction} (h : checkTransaction tx = true) : ∀ out ∈ tx.vout, 0 ≤ out.nValue := by
  have hsome : (getValueOut tx.vout).isSome = true := by
    simp only [checkTransaction, Bool.and_eq_true] at h
    exact h.1.1.2
  obtain ⟨v, hv⟩ := Option.isSome_iff_exists.1 hsome
  exact (getValueOut_eq_some_iff.1 hv).1

theorem checkTransaction_nodup {tx : CTransaction} (h : checkTransaction tx = true) : (tx.vin.map CTxIn.prevout).Nodup := by
  simp only [checkTransaction, Bool.and_eq_true] at h
  exact of_decide_eq_true h.1.2

theorem checkBlock_values (h : checkBlock block = true) : ∀ tx ∈ block.vtx, ∀ out ∈ tx.vout, 0 ≤ out.nValue := by
  intro tx htx
  apply checkTransaction_values
  unfold checkBlock at h
  split at h
  · cases h
  · next coinbase vtx heq => exact List.all_eq_true.1 (Bool.and_eq_true_iff.1 h).2 tx htx

theorem zip_undoReads {rs : List TxResult} (h : checkBlock block = true) (hlength : rs.length = block.vtx.length) :
    block.vtx.zip (none :: (((rs.drop 1).map TxResult.undo).map (·.map CTxInUndo.readBack)).map some) =
      undoReads block.vtx rs := by
  unfold checkBlock at h
  split at h
  · cases h
  · next coinbase vtx heq =>
    rw [heq] at hlength ⊢
    simp only [Bool.and_eq_true] at h
    obtain ⟨⟨hbase, hrest⟩, -⟩ := h
    cases rs with
    | nil => cases hlength
    | cons r rs =>
      have hfirst : undoRead coinbase r.undo = none := if_pos hbase
      have htail (vtx : List CTransaction) (rs : List TxResult) (hrest : vtx.all (!·.isCoinBase) = true) :
          vtx.zip ((rs.map TxResult.undo).map fun us => some (us.map CTxInUndo.readBack)) = undoReads vtx rs := by
        rw [List.map_map, List.zip_map_right, undoReads]
        apply List.map_congr_left
        rintro ⟨tx, r⟩ hmem
        have hnot : tx.isCoinBase = false := by simpa using List.all_eq_true.1 hrest tx (List.of_mem_zip hmem).1
        simp [undoRead, hnot]
      rw [List.drop_one, List.tail_cons, List.zip_cons_cons, List.map_map, undoReads, List.zip_cons_cons, List.map_cons, hfirst]
      exact congrArg _ (htail vtx rs hrest)

/-- When its outputs are added, no transaction of the block has unspent outputs already; and
    coins whose last output the block spends have a version that is not negative, or their
    transaction is of the block. -/
def Restorable (block : CBlock) (pindex : CBlockIndex) (m : Uint256 → Option CCoins) : Prop :=
  TxsRestorable pindex.nHeight (fun _ => false) m block.vtx

/-- `DisconnectBlock` with the undo data finds nothing wrong and gives back the view. -/
def Restores (flags : IndexFlags) (block : CBlock) (pindex : CBlockIndex) (view : FlatView) (c : Connected FlatView) : Prop :=
  ∃ d, disconnectBlock flags block pindex c.undo c.view = some d ∧ d.fClean = true ∧ d.view = view

theorem disconnectBlock_some {V : Type} [CoinsView V] {view : V} {d : Disconnected V} {rs : List TxResult}
    (hcheck : checkBlock block = true)
    (hlength : rs.length = block.vtx.length) :
    disconnectBlock flags block pindex (CBlockUndo.write ((rs.drop 1).map TxResult.undo)) view = some d ↔
      pindex.hash = getBestBlock view ∧ ∃ f view' u, disconnectTxs flags pindex.nHeight 0 (undoReads block.vtx rs) view =
        some (f, view', u) ∧
        d = ⟨f, setBestBlock view' pindex.hashPrev, u⟩ := by
  have hpos : 0 < block.vtx.length := by
    unfold checkBlock at hcheck
    split at hcheck
    · cases hcheck
    · next heq =>
      rw [heq]
      exact Nat.zero_lt_succ _
  have hsize : (((rs.drop 1).map TxResult.undo).map (·.map CTxInUndo.readBack)).length + 1 = block.vtx.length := by
    simp only [List.length_map, List.length_drop]
    omega
  unfold disconnectBlock
  rw [read_write, Option.bind_eq_bind, Option.bind_some, zip_undoReads hcheck hlength]
  by_cases hbest : pindex.hash = getBestBlock view
  · simp only [hbest, hsize, ne_eq, not_true_eq_false, if_false, true_and]
    constructor
    · intro h
      obtain ⟨⟨f, view', u⟩, htxs, h⟩ := Option.bind_eq_some_iff.1 h
      cases h
      exact ⟨f, view', u, htxs, rfl⟩
    · rintro ⟨f, view', u, htxs, rfl⟩
      rw [htxs]
      rfl
  · simp [hbest]

theorem same_false_iff {X m : Uint256 → Option CCoins} : Same (fun _ => false) X m ↔ X = m :=
  ⟨fun h => funext fun k => sameBut_false_iff.1 (h k), fun h k => h ▸ SameBut.refl false (X k)⟩

theorem Same.refl (patched : Uint256 → Bool) (m : Uint256 → Option CCoins) :
    Same patched m m := fun k => SameBut.refl (patched k) (m k)

/-- A block that is connected is disconnected to the view before it just where it is restorable. -/
theorem restores_iff {view : FlatView} {c : Connected FlatView} (hm : ChainCoins view.coins)
    (h : connectBlock flags rules block pindex view = some c) :
    Restores flags block pindex view c ↔ Restorable block pindex view.coins := by
  obtain ⟨m, b⟩ := view
  obtain ⟨hcheck, hprev, view', rs, htxs, -, rfl⟩ := connectBlock_some h
  have hpos : (0 : Int) < pindex.nHeight := by
    have := pindex.nHeight_pos
    omega
  obtain ⟨rfl, hcoins, hlength⟩ := connectTxs_flat hm (checkBlock_values hcheck) hpos htxs
  have hback := disconnectTxs_iff (fun _ => false) pindex.hash hm hcoins.tidy (checkBlock_values hcheck) hpos htxs
  replace hback := hback.trans (and_iff_right (Same.refl _ _))
  unfold Restores Restorable
  rw [← hback]
  constructor
  · rintro ⟨d, hd, hclean, hview⟩
    obtain ⟨-, f, view', u, hdisconnect, rfl⟩ := (disconnectBlock_some hcheck hlength).1 hd
    dsimp only at hclean
    subst hclean
    have hcoins' : view'.coins = m := congrArg FlatView.coins hview
    exact ⟨view', ⟨u, hdisconnect⟩, same_false_iff.2 hcoins'⟩
  · rintro ⟨view', ⟨u, hdisconnect⟩, hsame⟩
    refine ⟨_, (disconnectBlock_some hcheck hlength).2 ⟨rfl, true, view', u, hdisconnect, rfl⟩, rfl, ?_⟩
    obtain ⟨X, b'⟩ := view'
    obtain rfl := same_false_iff.1 hsame
    exact congrArg _ hprev

end Block

end Zumy.Blocks
