/-
  Zumy.Blocks.Indexes — the address indexes of a block that is connected and disconnected.

  A block is a list of turns: an input is spent, or an output received. `ConnectBlock` makes
  an update of each index of a turn, in order (`connectTxs_turns`); `DisconnectBlock`
  makes one of the same key, in the other order (`disconnectTxs_turns`), whatever it finds
  wrong. So of each key the first turn of the block decides what is there in the end.

  (1) The address index: the entries are erased.
  (2) The address-unspent index: behind an output there is no entry; behind an input there
      is one with the height in the undo data, which is 0 unless the input spent the last
      output of its transaction.
  (3) The spent index: nothing is undone.
-/
import Zumy.Blocks.Undo

namespace Zumy.Blocks

open Zumy.Coins Zumy.Lib CoinsView

/-! ## Turns -/

inductive Turn
  /-- The `j`-th input spends an output, with undo data `undo`. -/
  | spend (pos : TxPos) (j : Nat) (input : CTxIn) (undo : CTxInUndo)
  /-- The `k`-th output is received. -/
  | receive (pos : TxPos) (k : Nat) (out : CTxOut)

namespace Turn

def connect (flags : IndexFlags) : Turn → IndexUpdates
  | spend pos j input undo => spendingUpdates flags pos j input undo.txout
  | receive pos k out => receivingUpdates flags pos k out

def disconnect (flags : IndexFlags) : Turn → IndexUpdates
  | spend pos j input undo => undoSpending flags pos j input undo (if flags.fAddressIndex then some undo.txout else none)
  | receive pos k out => undoReceiving flags pos k out

end Turn

/-- The inputs from the `j`-th on; the coins change with each. -/
def inputTurns (pos : TxPos) : Nat → (Uint256 → Option CCoins) → List CTxIn → List Turn
  | _, _, [] => []
  | j, m, txin :: vin =>
    let coins := (m txin.prevout.hash).getD .empty
    .spend pos j txin (undoOf coins txin.prevout.n (entry .null coins.vout txin.prevout.n)) ::
      inputTurns pos (j + 1) (flatModify m txin.prevout.hash (·.spend txin.prevout.n)) vin

def txTurns (pos : TxPos) (m : Uint256 → Option CCoins) (tx : CTransaction) : List Turn :=
  inputTurns pos 0 m (spendingInputs tx) ++ tx.vout.mapIdx (.receive pos)

/-- The transactions from the `i`-th on. -/
def txsTurns (nHeight : Int) : Nat → (Uint256 → Option CCoins) → List CTransaction → List Turn
  | _, _, [] => []
  | i, m, tx :: vtx => txTurns ⟨nHeight, i, tx.hash⟩ m tx ++ txsTurns nHeight (i + 1) (flatTx nHeight m tx) vtx

def blockTurns (block : CBlock) (pindex : CBlockIndex) (m : Uint256 → Option CCoins) : List Turn :=
  txsTurns pindex.nHeight 0 m block.vtx

/-! ## The updates of a block -/

@[simp] theorem concatUpdates_nil : concatUpdates [] = .empty := rfl

@[simp] theorem concatUpdates_cons (u : IndexUpdates)
    (us : List IndexUpdates) : concatUpdates (u :: us) = u.append (concatUpdates us) := rfl

theorem append_assoc (a b c : IndexUpdates) : (a.append b).append c = a.append (b.append c) := by
  simp [IndexUpdates.append, List.append_assoc]

theorem concatUpdates_append (us us' : List IndexUpdates) :
    concatUpdates (us ++ us') = (concatUpdates us).append (concatUpdates us') := by
  induction us with
  | nil => rfl
  | cons u us ih => rw [List.cons_append, concatUpdates_cons, ih, concatUpdates_cons, append_assoc]

section Connect

variable {m X : Uint256 → Option CCoins} {b : Uint256} {flags : IndexFlags} {pos : TxPos} {j i : Nat} {vin : List CTxIn}
    {nHeight : Int}

theorem getOutputFor_flat {txin : CTxIn} {out : CTxOut} (h : getOutputFor (⟨m, b⟩ : FlatView) txin = some out) :
    ∃ c, m txin.prevout.hash = some c ∧ c.isAvailable txin.prevout.n = true ∧ out = entry .null c.vout txin.prevout.n := by
  obtain ⟨c, hc, hout⟩ := Option.bind_eq_some_iff.1 h
  refine ⟨c, hc, ?_⟩
  split at hout
  · next havailable => exact ⟨havailable, by simp [entry, hout]⟩
  · cases hout

theorem getOutputFor_of_available {txin : CTxIn} {c : CCoins} (hc : m txin.prevout.hash = some c)
    (hout : c.isAvailable txin.prevout.n = true) :
    getOutputFor (⟨m, b⟩ : FlatView) txin = some (entry .null c.vout txin.prevout.n) := by
  have hlt := lt_of_isAvailable hout
  simp [getOutputFor, getCoins, hc, hout, entry, hlt]

theorem getOutputFor_spend {txin input : CTxIn} {out : CTxOut} (hm : TidyCoins m) {c : CCoins} (hc : m txin.prevout.hash = some c)
    (havailable : c.isAvailable txin.prevout.n = true) (hne : input.prevout ≠ txin.prevout)
    (h : getOutputFor (⟨m, b⟩ : FlatView) input = some out) :
    getOutputFor (⟨flatModify m txin.prevout.hash (·.spend txin.prevout.n), b⟩ : FlatView) input = some out := by
  obtain ⟨c', hc', havailable', rfl⟩ := getOutputFor_flat h
  by_cases hhash : input.prevout.hash = txin.prevout.hash
  · have hn : input.prevout.n ≠ txin.prevout.n := by
      intro hn
      apply hne
      obtain ⟨⟨_, _⟩, _, _⟩ := input
      obtain ⟨⟨_, _⟩, _, _⟩ := txin
      simp only at hhash hn
      rw [hhash, hn]
    rw [hhash] at hc'
    cases hc.symm.trans hc'
    have htidy := hm _ c hc
    have hentry : entry CTxOut.null (c.spend txin.prevout.n).vout input.prevout.n = entry .null c.vout input.prevout.n := by
      rw [entry_spend htidy havailable, Function.update_of_ne hn]
    have hleft : (c.spend txin.prevout.n).isAvailable input.prevout.n = true := by
      rw [isAvailable_iff, hentry]
      exact isAvailable_iff.1 havailable'
    have hcoins : flatModify m txin.prevout.hash (·.spend txin.prevout.n) input.prevout.hash = some (c.spend txin.prevout.n) := by
      rw [hhash, flatModify, Function.update_self, hc, modified_spend htidy havailable, if_neg]
      intro hnil
      rw [isAvailable_iff, hnil] at hleft
      cases hleft
    rw [getOutputFor_of_available hcoins hleft, hentry]
  · have hcoins : flatModify m txin.prevout.hash (·.spend txin.prevout.n) input.prevout.hash = some c' := by
      rw [flatModify, Function.update_of_ne hhash, hc']
    exact getOutputFor_of_available hcoins havailable'

theorem mapM_some_mono {α β : Type} {f g : α → Option β} {l : List α} {bs : List β} (h : l.mapM f = some bs)
    (hfg : ∀ a ∈ l, ∀ b, f a = some b → g a = some b) : l.mapM g = some bs := by
  induction l generalizing bs with
  | nil => exact h
  | cons a l ih =>
    rw [List.forall_mem_cons] at hfg
    rw [List.mapM_cons] at h ⊢
    obtain ⟨b, hb, h⟩ := Option.bind_eq_some_iff.1 h
    obtain ⟨bs', hbs, heq⟩ := Option.bind_eq_some_iff.1 h
    rw [hfg.1 b hb, ih hbs hfg.2]
    exact heq

/-- The updates of the inputs are those of their turns; the undo data has the outputs that
    were read before. -/
theorem inputTurns_connect (flags : IndexFlags) (pos : TxPos) (j : Nat) {view' : FlatView} {us : CTxUndo} {prevouts : List CTxOut}
    (hm : ChainCoins m) (hnodup : (vin.map CTxIn.prevout).Nodup)
    (hprevouts : vin.mapM (getOutputFor (⟨m, b⟩ : FlatView)) = some prevouts)
    (h : spendInputs (⟨m, b⟩ : FlatView) vin = some (view', us)) :
    ((vin.zip prevouts).zipIdx j).map (fun it => spendingUpdates flags pos it.2 it.1.1 it.1.2) =
      (inputTurns pos j m vin).map (Turn.connect flags) ∧
      ((vin.zip us).zipIdx j).map (fun it => Turn.spend pos it.2 it.1.1 it.1.2) = inputTurns pos j m vin := by
  induction vin generalizing m us j prevouts with
  | nil => exact ⟨rfl, rfl⟩
  | cons txin vin ih =>
    obtain ⟨view₁, undo, us', hinput, hrest, rfl⟩ := spendInputs_cons h
    obtain ⟨c, hc, hout, rfl, rfl⟩ := spendInput_flat hinput
    rw [List.map_cons, List.nodup_cons] at hnodup
    rw [List.mapM_cons] at hprevouts
    obtain ⟨out, hfirst, hprevouts⟩ := Option.bind_eq_some_iff.1 hprevouts
    obtain ⟨outs, houts, heq⟩ := Option.bind_eq_some_iff.1 hprevouts
    cases heq
    have hrest' : vin.mapM (getOutputFor (⟨flatModify m txin.prevout.hash (·.spend txin.prevout.n), b⟩ : FlatView)) =
      some outs := by
      apply mapM_some_mono houts
      intro input hmem o ho
      refine getOutputFor_spend hm.tidy hc hout (fun heq => hnodup.1 ?_) ho
      rw [← heq]
      exact List.mem_map_of_mem hmem
    obtain ⟨hconnect, hspend⟩ := ih (j := j + 1) (tidy_flatModify_spend hm hc hout) hnodup.2 hrest' hrest
    obtain ⟨c', hc', -, rfl⟩ := getOutputFor_flat hfirst
    cases hc.symm.trans hc'
    have hcoins : (m txin.prevout.hash).getD .empty = c := by rw [hc, Option.getD_some]
    have htxout : (undoOf c txin.prevout.n (entry .null c.vout txin.prevout.n)).txout = entry .null c.vout txin.prevout.n := by
      unfold undoOf
      split <;> rfl
    simp only [List.zip_cons_cons, List.zipIdx_cons, List.map_cons, inputTurns, hcoins, hconnect, hspend, Turn.connect,
      htxout, and_self]

theorem connectTx_turns {tx : CTransaction} {view' : FlatView} {r : TxResult} (hm : ChainCoins m)
    (hcheck : checkTransaction tx = true)
    (hpos : 0 < nHeight) (h : connectTx flags nHeight i (⟨m, b⟩ : FlatView) tx = some (view', r)) :
    r.updates = concatUpdates ((txTurns ⟨nHeight, i, tx.hash⟩ m tx).map (Turn.connect flags)) ∧
      (((spendingInputs tx).zip r.undo).zipIdx.map fun it => Turn.spend ⟨nHeight, i, tx.hash⟩ it.2 it.1.1 it.1.2) =
        inputTurns ⟨nHeight, i, tx.hash⟩ 0 m (spendingInputs tx) := by
  obtain ⟨hspend, -, -, -⟩ := connectTx_flat hm (checkTransaction_values hcheck) hpos h
  obtain ⟨view₁, prevouts, hstart, hprevouts, -, hupdates⟩ := connectTx_some h
  obtain rfl := haveInputs_flat hstart
  have hnodup : ((spendingInputs tx).map CTxIn.prevout).Nodup := by
    unfold spendingInputs
    split
    · exact List.nodup_nil
    · exact checkTransaction_nodup hcheck
  obtain ⟨hconnect, hturns⟩ := inputTurns_connect flags ⟨nHeight, i, tx.hash⟩ 0 hm hnodup hprevouts hspend
  refine ⟨?_, hturns⟩
  rw [hupdates, connectUpdates, txTurns, List.map_append, ← hconnect, List.mapIdx_eq_zipIdx_map, List.mapIdx_eq_zipIdx_map,
    List.mapIdx_eq_zipIdx_map,
    List.map_map]
  rfl

theorem connectTxs_turns (flags : IndexFlags) {vtx : List CTransaction} {view' : FlatView} {rs : List TxResult}
    (hm : ChainCoins m)
    (hcheck : ∀ tx ∈ vtx, checkTransaction tx = true) (hpos : 0 < nHeight)
    (h : connectTxs flags nHeight i (⟨m, b⟩ : FlatView) vtx = some (view', rs)) :
    concatUpdates (rs.map TxResult.updates) = concatUpdates ((txsTurns nHeight i m vtx).map (Turn.connect flags)) := by
  induction vtx generalizing i m rs with
  | nil =>
    cases h
    rfl
  | cons tx vtx ih =>
    rw [List.forall_mem_cons] at hcheck
    obtain ⟨view₁, r, rs', htx, hrest, rfl⟩ := connectTxs_cons h
    obtain ⟨-, rfl, hcoins, -⟩ := connectTx_flat hm (checkTransaction_values hcheck.1) hpos htx
    rw [List.map_cons, concatUpdates_cons, (connectTx_turns hm hcheck.1 hpos htx).1, ih hcoins hcheck.2 hrest, txsTurns,
      List.map_append,
      concatUpdates_append]

end Connect

section Disconnect

variable {m X : Uint256 → Option CCoins} {b b' : Uint256} {flags : IndexFlags} {pos : TxPos} {j i : Nat} {nHeight : Int}

theorem getOutputFor_apply (hX : TidyCoins X) {undo : CTxInUndo} (input : CTxIn) (hundo : CanPutBack undo) :
    getOutputFor (applyTxInUndo undo (⟨X, b⟩ : FlatView) input.prevout).2 input = some undo.txout := by
  have hbase : Exact CTxOut.isNull CTxOut.null (undoBase undo ((X input.prevout.hash).getD .empty)).vout := by
    unfold undoBase
    split
    · exact trimmed_nil.exact
    · cases hx : X input.prevout.hash with
      | none => exact trimmed_nil.exact
      | some x => exact (hX _ x hx).vout.exact
  have hcoins : (applyTxInUndo undo (⟨X, b⟩ : FlatView) input.prevout).2 =
      ⟨Function.update X input.prevout.hash (some (putBack undo input.prevout.n ((X input.prevout.hash).getD .empty))), b⟩ := by
    rw [← modified_applyCoins hbase hundo.1]
    rfl
  rw [hcoins, getOutputFor_of_available (Function.update_self ..) (isAvailable_putBack hbase hundo.1),
    entry_putBack hbase hundo.1, Function.update_self]

/-- The loop over the inputs makes the updates of their turns, the last first. -/
theorem restoreInputs_turns (flags : IndexFlags) (pos : TxPos) (j : Nat) {rest : List (CTxIn × CTxInUndo)}
    (hX : TidyCoins X) (hundo : ∀ it ∈ rest, CanPutBack it.2) :
    ∃ f view', restoreInputs flags pos j rest (⟨X, b⟩ : FlatView) =
      some (f, view', ((rest.zipIdx j).map fun it => (Turn.spend pos it.2 it.1.1 it.1.2).disconnect flags).reverse) := by
  induction rest generalizing j with
  | nil => exact ⟨true, _, rfl⟩
  | cons it rest ih =>
    obtain ⟨input, undo⟩ := it
    rw [List.forall_mem_cons] at hundo
    obtain ⟨f, ⟨X₁, b₁⟩, hrest⟩ := ih (j := j + 1) hundo.2
    obtain ⟨hX₁, hb₁⟩ := restoreInputs_tidy hX hundo.2 hrest
    have hout := getOutputFor_apply (b := b₁) hX₁ input hundo.1
    unfold restoreInputs
    rw [hrest, Option.bind_eq_bind, Option.bind_some, List.zipIdx_cons, List.map_cons, List.reverse_cons]
    dsimp only
    rw [hout]
    unfold Turn.disconnect
    dsimp only
    split
    · exact ⟨_, _, rfl⟩
    · exact ⟨_, _, rfl⟩

theorem disconnectTx_turns (b' : Uint256) {tx : CTransaction} {view' : FlatView} {r : TxResult} (hm : ChainCoins m)
    (hX : TidyCoins X)
    (hcheck : checkTransaction tx = true) (hpos : 0 < nHeight)
    (h : connectTx flags nHeight i (⟨m, b⟩ : FlatView) tx = some (view', r)) :
    ∃ f Y, disconnectTx flags nHeight i tx (undoRead tx r.undo) (⟨X, b'⟩ : FlatView) =
      some (f, Y, concatUpdates ((txTurns ⟨nHeight, i, tx.hash⟩ m tx).map (Turn.disconnect flags)).reverse) := by
  obtain ⟨hspend, -, -, hundo⟩ := connectTx_flat hm (checkTransaction_values hcheck) hpos h
  obtain ⟨-, hturns⟩ := connectTx_turns hm hcheck hpos h
  have hlength : r.undo.length = (spendingInputs tx).length := (spendInputs_flat hm hspend).2.2.1
  have hreceiving : ((tx.vout.mapIdx (Turn.receive ⟨nHeight, i, tx.hash⟩)).map (Turn.disconnect flags)) =
      tx.vout.mapIdx fun k out => undoReceiving flags ⟨nHeight, i, tx.hash⟩ k out := by
    rw [List.mapIdx_eq_zipIdx_map, List.mapIdx_eq_zipIdx_map, List.map_map]
    rfl
  unfold disconnectTx undoRead txTurns
  rw [List.map_append, List.reverse_append, hreceiving]
  cases hbase : tx.isCoinBase with
  | true =>
    have hnone : spendingInputs tx = [] := if_pos hbase
    rw [hnone]
    simp only [if_true, inputTurns, List.map_nil, List.reverse_nil, List.append_nil]
    exact ⟨_, _, rfl⟩
  | false =>
    have hvin : spendingInputs tx = tx.vin := by simp [spendingInputs, hbase]
    rw [hvin] at hturns hlength
    have hzip : ∀ it ∈ tx.vin.zip (r.undo.map CTxInUndo.readBack), CanPutBack it.2 :=
      fun it hit => hundo it.2 (List.of_mem_zip hit).2
    obtain ⟨f, Y, hrestore⟩ := restoreInputs_turns flags ⟨nHeight, i, tx.hash⟩ 0 (b := b') (tidy_removed hX tx.hash) hzip
    -- the version alone is not as it was
    have hread : ((tx.vin.zip (r.undo.map CTxInUndo.readBack)).zipIdx.map fun it =>
        (Turn.spend ⟨nHeight, i, tx.hash⟩ it.2 it.1.1 it.1.2).disconnect flags) =
        (inputTurns ⟨nHeight, i, tx.hash⟩ 0 m tx.vin).map (Turn.disconnect flags) := by
      rw [← hturns, List.zip_map_right, List.zipIdx_map, List.map_map, List.map_map]
      rfl
    rw [hread] at hrestore
    have hremoved : modifyCoins (⟨X, b'⟩ : FlatView) tx.hash (fun _ => .empty) = ⟨Function.update X tx.hash none, b'⟩ := rfl
    simp only [Bool.false_eq_true, if_false, List.length_map, hlength, ne_eq, not_true_eq_false, hremoved, hrestore, hvin]
    exact ⟨_, _, rfl⟩

theorem disconnectTxs_turns (b' : Uint256) {vtx : List CTransaction} {view' : FlatView} {rs : List TxResult}
    (hm : ChainCoins m) (hX : TidyCoins X)
    (hcheck : ∀ tx ∈ vtx, checkTransaction tx = true) (hpos : 0 < nHeight)
    (h : connectTxs flags nHeight i (⟨m, b⟩ : FlatView) vtx = some (view', rs)) :
    ∃ f Y, disconnectTxs flags nHeight i (undoReads vtx rs) (⟨X, b'⟩ : FlatView) =
      some (f, Y, concatUpdates ((txsTurns nHeight i m vtx).map (Turn.disconnect flags)).reverse) := by
  induction vtx generalizing i m rs with
  | nil =>
    cases h
    exact ⟨true, _, rfl⟩
  | cons tx vtx ih =>
    rw [List.forall_mem_cons] at hcheck
    obtain ⟨view₁, r, rs', htx, hrest, rfl⟩ := connectTxs_cons h
    obtain ⟨-, rfl, hcoins, -⟩ := connectTx_flat hm (checkTransaction_values hcheck.1) hpos htx
    obtain ⟨f₁, ⟨X₁, b₁⟩, hlater⟩ := ih hcoins hcheck.2 hrest
    obtain ⟨hX₁, hb₁⟩ := disconnectTxs_tidy hcoins hX (fun tx htx => checkTransaction_values (hcheck.2 tx htx)) hpos hrest hlater
    obtain ⟨f₂, Y, hthis⟩ := disconnectTx_turns b₁ hm hX₁ hcheck.1 hpos htx
    refine ⟨f₁ && f₂, Y, ?_⟩
    have hreads : undoReads (tx :: vtx) (r :: rs') = (tx, undoRead tx r.undo) :: undoReads vtx rs' := rfl
    rw [hreads, disconnectTxs, hlater, Option.bind_eq_bind, Option.bind_some]
    dsimp only
    rw [hthis, txsTurns, List.map_append, List.reverse_append, concatUpdates_append]
    rfl

end Disconnect

/-! ## The indexes -/

def IndexFlags.both : IndexFlags := ⟨true, true⟩

namespace Turn

def addressEntry? : Turn → Option (CAddressIndexKey × CAmount)
  | spend pos j _ undo => (scriptAddress undo.txout.scriptPubKey).map (addressEntry pos · j true (-undo.txout.nValue))
  | receive pos k out => (scriptAddress out.scriptPubKey).map (addressEntry pos · k false out.nValue)

/-- What `ConnectBlock` writes to the address-unspent index. -/
def unspentAfter : Turn → Option (CAddressUnspentKey × CAddressUnspentValue)
  | spend _ _ input undo =>
    (scriptAddress undo.txout.scriptPubKey).map fun addr => (⟨addr.1, addr.2, input.prevout.hash, input.prevout.n⟩, .null)
  | receive pos k out =>
    (scriptAddress out.scriptPubKey).map fun addr =>
      (⟨addr.1, addr.2, pos.txhash, k⟩, ⟨out.nValue, out.scriptPubKey, pos.nHeight⟩)

/-- What `DisconnectBlock` writes to it: nothing is left of an output that was received; one
    that was spent has its height if it was the last of its transaction, and 0 if not. -/
def unspentBefore : Turn → Option (CAddressUnspentKey × CAddressUnspentValue)
  | spend _ _ input undo =>
    (scriptAddress undo.txout.scriptPubKey).map fun addr =>
      (⟨addr.1, addr.2, input.prevout.hash, input.prevout.n⟩, ⟨undo.txout.nValue, undo.txout.scriptPubKey, undo.nHeight⟩)
  | receive pos k out => (scriptAddress out.scriptPubKey).map fun addr => (⟨addr.1, addr.2, pos.txhash, k⟩, .null)

/-- What `ConnectBlock` writes to the spent index. -/
def spentAfter : Turn → Option (CSpentIndexKey × CSpentIndexValue)
  | spend pos j input undo =>
    let addr := (scriptAddress undo.txout.scriptPubKey).getD (0, [])
    some (input.prevout, ⟨pos.txhash, j, pos.nHeight, undo.txout.nValue, addr.1, addr.2⟩)
  | receive .. => none

theorem connect_fields (t : Turn) : t.connect .both = ⟨t.addressEntry?.toList, t.unspentAfter.toList, t.spentAfter.toList⟩ := by
  cases t <;> rfl

theorem disconnect_fields (t : Turn) : (t.disconnect .both).addressIndex = t.addressEntry?.toList ∧
    (t.disconnect .both).addressUnspentIndex = t.unspentBefore.toList := by
  cases t with
  | spend pos j input undo => exact ⟨rfl, rfl⟩
  | receive pos k out => exact ⟨rfl, rfl⟩

theorem unspent_keys (t : Turn) : t.unspentBefore.map Prod.fst = t.unspentAfter.map Prod.fst := by
  cases t with
  | spend pos j input undo =>
    unfold unspentBefore unspentAfter
    rw [Option.map_map, Option.map_map]
    rfl
  | receive pos k out =>
    unfold unspentBefore unspentAfter
    rw [Option.map_map, Option.map_map]
    rfl

end Turn

theorem concatUpdates_fields (us : List IndexUpdates) : concatUpdates us =
    ⟨us.flatMap IndexUpdates.addressIndex, us.flatMap IndexUpdates.addressUnspentIndex, us.flatMap IndexUpdates.spentIndex⟩ := by
  induction us with
  | nil => rfl
  | cons u us ih => rw [concatUpdates_cons, ih, IndexUpdates.append, List.flatMap_cons, List.flatMap_cons, List.flatMap_cons]

theorem flatMap_toList {α β : Type} (f : α → Option β) (l : List α) : l.flatMap (fun a => (f a).toList) = l.filterMap f := by
  rw [List.filterMap_eq_flatMap_toList]

theorem connect_vectors (ts : List Turn) : concatUpdates (ts.map (Turn.connect .both)) =
    ⟨ts.filterMap Turn.addressEntry?, ts.filterMap Turn.unspentAfter, ts.filterMap Turn.spentAfter⟩ := by
  rw [concatUpdates_fields, List.flatMap_map, List.flatMap_map, List.flatMap_map]
  simp only [Turn.connect_fields, flatMap_toList]

/-- The two vectors of `DisconnectBlock` that are used: their entries are in the other order. -/
theorem disconnect_vectors (ts : List Turn) :
    (concatUpdates (ts.map (Turn.disconnect .both)).reverse).addressIndex = (ts.filterMap Turn.addressEntry?).reverse ∧
      (concatUpdates (ts.map (Turn.disconnect .both)).reverse).addressUnspentIndex =
        (ts.filterMap Turn.unspentBefore).reverse := by
  rw [concatUpdates_fields, ← List.map_reverse, List.flatMap_map, List.flatMap_map]
  simp only [Turn.disconnect_fields, flatMap_toList, List.filterMap_reverse, and_self]

/-- What the indexes hold before a block that is to be disconnected to them again. -/
structure IndexesFit (ts : List Turn) (ix : Indexes) : Prop where
  /-- There is no entry of the block's turns in the address index. -/
  address : ∀ t ∈ ts, ∀ it, t.addressEntry? = some it → ix.address it.1 = none
  /-- Of each output, the address-unspent index has what is restored of the block's first turn of it. -/
  unspent : ∀ key it, firstOf key ((ts.filterMap Turn.unspentBefore).map unspentEntry) = some it → ix.unspent key = it.2
  /-- Of each output that is spent, the spent index has what the last turn of it writes. -/
  spent : ∀ key it, firstOf key ((ts.filterMap Turn.spentAfter).map spentEntry).reverse = some it → ix.spent key = it.2

theorem address_restored_iff (ts : List Turn) (m : CAddressIndexKey → Option CAmount) :
    applyBatch ((ts.filterMap Turn.addressEntry?).reverse.map fun it => (it.1, none))
      (applyBatch ((ts.filterMap Turn.addressEntry?).map fun it => (it.1, some it.2)) m) = m ↔
    ∀ t ∈ ts, ∀ it, t.addressEntry? = some it → m it.1 = none := by
  rw [List.map_reverse, undo_iff (by simp [List.map_map, Function.comp_def])]
  constructor
  · intro h t ht it hit
    have hmem : it ∈ ts.filterMap Turn.addressEntry? := List.mem_filterMap.2 ⟨t, ht, hit⟩
    have hkey : it.1 ∈ ((ts.filterMap Turn.addressEntry?).map fun it => (it.1, (none : Option CAmount))).map Prod.fst := by
      rw [List.map_map]
      exact List.mem_map.2 ⟨it, hmem, rfl⟩
    obtain ⟨first, hfirst⟩ := Option.isSome_iff_exists.1 ((firstOf_isSome _ _).2 hkey)
    rw [h it.1 first hfirst]
    obtain ⟨it', -, rfl⟩ := List.mem_map.1 (List.mem_of_find?_eq_some hfirst)
    rfl
  · intro h key it hit
    obtain ⟨it', hmem, rfl⟩ := List.mem_map.1 (List.mem_of_find?_eq_some hit)
    have hkey : it'.1 = key := by simpa using List.find?_some hit
    obtain ⟨t, ht, hturn⟩ := List.mem_filterMap.1 hmem
    rw [← hkey, h t ht it' hturn]

theorem unspent_restored_iff (ts : List Turn) (m : CAddressUnspentKey → Option CAddressUnspentValue) :
    applyBatch ((ts.filterMap Turn.unspentBefore).reverse.map unspentEntry)
      (applyBatch ((ts.filterMap Turn.unspentAfter).map unspentEntry) m) = m ↔
      ∀ key it, firstOf key ((ts.filterMap Turn.unspentBefore).map unspentEntry) = some it → m key = it.2 := by
  rw [List.map_reverse, undo_iff]
  have hkeys (f : Turn → Option (CAddressUnspentKey × CAddressUnspentValue)) :
      ((ts.filterMap f).map unspentEntry).map Prod.fst = ts.filterMap fun t => (f t).map Prod.fst := by
    rw [List.map_map, List.map_filterMap]
    rfl
  rw [hkeys, hkeys]
  exact congrArg (List.filterMap · ts) (funext Turn.unspent_keys)

/-- The indexes behind a block that is connected and disconnected are those before it, just
    where they held what is restored. -/
theorem indexes_restored_iff (rules : Rules) (block : CBlock) (pindex : CBlockIndex) (view : FlatView) (ix : Indexes)
    (c : Connected FlatView)
    (hm : ChainCoins view.coins) (h : connectBlock .both rules block pindex view = some c) :
    ∃ d, disconnectBlock .both block pindex c.undo c.view = some d ∧
      ((ix.connect .both c.updates).disconnect .both d.updates = ix ↔ IndexesFit (blockTurns block pindex view.coins) ix) := by
  obtain ⟨m, b⟩ := view
  obtain ⟨hcheck, hprev, view', rs, htxs, -, rfl⟩ := connectBlock_some h
  have hpos : (0 : Int) < pindex.nHeight := by
    have := pindex.nHeight_pos
    omega
  have htx : ∀ tx ∈ block.vtx, checkTransaction tx = true := by
    intro tx htx
    unfold checkBlock at hcheck
    split at hcheck
    · cases hcheck
    · exact List.all_eq_true.1 (Bool.and_eq_true_iff.1 hcheck).2 tx htx
  obtain ⟨rfl, hcoins, hlength⟩ := connectTxs_flat hm (checkBlock_values hcheck) hpos htxs
  have hconnect := connectTxs_turns .both hm htx hpos htxs
  obtain ⟨f, Y, hback⟩ := disconnectTxs_turns pindex.hash hm hcoins.tidy htx hpos htxs
  refine ⟨_, (disconnectBlock_some hcheck hlength).2 ⟨rfl, f, Y, _, hback, rfl⟩, ?_⟩
  obtain ⟨haddress, hunspent⟩ := disconnect_vectors (blockTurns block pindex m)
  change concatUpdates (rs.map TxResult.updates) =
    concatUpdates ((blockTurns block pindex m).map (Turn.connect .both)) at hconnect
  obtain ⟨address, unspent, spent⟩ := ix
  dsimp only
  rw [hconnect, connect_vectors]
  change (Indexes.mk _ _ _ = Indexes.mk _ _ _) ↔ _
  rw [Indexes.mk.injEq]
  change applyBatch ((concatUpdates ((blockTurns block pindex m).map (Turn.disconnect .both)).reverse).addressIndex.map fun it => (it.1, none)) _ = _ ∧
    applyBatch ((concatUpdates ((blockTurns block pindex m).map (Turn.disconnect .both)).reverse).addressUnspentIndex.map unspentEntry) _ = _ ∧ _ ↔ _
  rw [haddress, hunspent]
  change applyBatch _ (applyBatch ((List.filterMap Turn.addressEntry? _).map fun it => (it.1, some it.2)) address) = address ∧
    applyBatch _ (applyBatch ((List.filterMap Turn.unspentAfter _).map unspentEntry) unspent) = unspent ∧
      applyBatch ((List.filterMap Turn.spentAfter _).map spentEntry) spent = spent ↔ _
  rw [address_restored_iff, unspent_restored_iff, applyBatch_eq_self_iff]
  exact ⟨fun h => ⟨h.1, h.2.1, h.2.2⟩, fun h => ⟨h.address, h.unspent, h.spent⟩⟩

/-! ## Entries that stay -/

namespace IndexSample

def script : CScript := getScriptForDestination (.keyID ⟨List.replicate 20 1, rfl⟩)

def coinbase (hash : Uint256) : CTransaction := { vin := [⟨.null, [1, 1], 0⟩], vout := [⟨50, script⟩], hash, nVersion := 1 }

def funding : CTransaction := { vin := [⟨⟨4, 0⟩, [], 0⟩], vout := [⟨30, script⟩, ⟨20, script⟩], hash := 5, nVersion := 1 }

def payment : CTransaction := { vin := [⟨⟨5, 0⟩, [], 0⟩], vout := [⟨30, script⟩], hash := 9, nVersion := 1 }

def block : CBlock := ⟨3, 1, [coinbase 8, payment]⟩

def pindex : CBlockIndex := ⟨3, 1, 2, Nat.two_pos, by decide, Nat.one_ne_zero⟩

def view : FlatView := ⟨Function.update (fun _ => none) 5 (some (CCoins.fromTx funding 1)), 1⟩

def empty : Indexes := ⟨fun _ => none, fun _ => none, fun _ => none⟩

theorem view_coins : ChainCoins view.coins :=
  chainCoins_single ⟨⟨by unfold Exact; decide, by decide⟩, by decide, by decide⟩ (by decide)

def connected : Option (Connected FlatView) := connectBlock .both (fun _ _ => true) block pindex view

def disconnected : Option (Disconnected FlatView) := connected.bind fun c => disconnectBlock .both block pindex c.undo c.view

def left : Option CSpentIndexValue :=
  connected.bind fun c => disconnected.bind fun d => ((empty.connect .both c.updates).disconnect .both d.updates).spent ⟨5, 0⟩

end IndexSample

/-- Nothing was known of the output that the block spends; behind both, the spent index says that
    the disconnected block spends it. -/
theorem spent_entry_stays :
    ¬ ∀ (rules : Rules) (block : CBlock) (pindex : CBlockIndex) (view : FlatView) (ix : Indexes) (c : Connected FlatView)
      (d : Disconnected FlatView),
      ChainCoins view.coins → connectBlock .both rules block pindex view = some c →
        disconnectBlock .both block pindex c.undo c.view = some d →
        (ix.connect .both c.updates).disconnect .both d.updates = ix := by
  intro h
  obtain ⟨c, hc⟩ : ∃ c, IndexSample.connected = some c := Option.isSome_iff_exists.1 (by decide)
  obtain ⟨d, hd⟩ : ∃ d, IndexSample.disconnected = some d := Option.isSome_iff_exists.1 (by decide)
  have hboth : disconnectBlock .both IndexSample.block IndexSample.pindex c.undo c.view = some d := by
    rw [← hd, IndexSample.disconnected, hc]
    rfl
  have hix := h _ _ _ _ IndexSample.empty c d IndexSample.view_coins hc hboth
  have hleft : IndexSample.left = none := by
    rw [IndexSample.left, hc, hd]
    exact congrArg (fun ix => ix.spent ⟨5, 0⟩) hix
  revert hleft
  decide

theorem coinbase_leaves_indexes :
    ∃ c d, connectBlock .both (fun _ _ => true) ⟨3, 1, [IndexSample.coinbase 8]⟩ IndexSample.pindex IndexSample.view = some c ∧
      disconnectBlock .both ⟨3, 1, [IndexSample.coinbase 8]⟩ IndexSample.pindex c.undo c.view = some d ∧
      (IndexSample.empty.connect .both c.updates).disconnect .both d.updates = IndexSample.empty := by
  obtain ⟨c, hc⟩ : ∃ c, connectBlock .both (fun _ _ => true) ⟨3, 1,
    [IndexSample.coinbase 8]⟩ IndexSample.pindex IndexSample.view = some c :=
    Option.isSome_iff_exists.1 (by decide)
  obtain ⟨d, hd, hiff⟩ := indexes_restored_iff _ _ _ _ IndexSample.empty c IndexSample.view_coins hc
  refine ⟨c, d, hc, hd, hiff.2 ⟨fun _ _ _ _ => rfl, ?_, ?_⟩⟩
  · intro key it hit
    have hmem := List.mem_of_find?_eq_some hit
    have hvalues : ∀ it ∈ ((blockTurns ⟨3, 1, [IndexSample.coinbase 8]⟩ IndexSample.pindex IndexSample.view.coins).filterMap Turn.unspentBefore).map
        unspentEntry, it.2 = none := by decide
    rw [hvalues it hmem]
    rfl
  · intro key it hit
    cases hit

end Zumy.Blocks
