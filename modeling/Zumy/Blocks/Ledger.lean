/-
  Zumy.Blocks.Ledger — which outputs are unspent behind the transactions of a chain.

  `Ledger txs m`: the unspent outputs of `m` are those that a transaction of `txs` creates
  and none of them spends. A transaction whose id none of them has can be added
  (`Ledger.connect`); and one that has its inputs is such a transaction, if equal ids mean
  equal inputs (`Ledger.fresh`): another with its id would have spent them.
-/
import Zumy.Blocks.Undo

namespace Zumy.Blocks

open Zumy.Coins Zumy.Lib CoinsView

variable {m X : Uint256 → Option CCoins} {b : Uint256} {c : CCoins} {o : COutPoint} {tx : CTransaction}
    {txs : List CTransaction} {nHeight : Int}

def Unspent (m : Uint256 → Option CCoins) (o : COutPoint) : Prop := ∃ c, m o.hash = some c ∧ c.isAvailable o.n = true

def Spends (tx : CTransaction) (o : COutPoint) : Prop := o ∈ (spendingInputs tx).map CTxIn.prevout

def Creates (tx : CTransaction) (o : COutPoint) : Prop :=
  tx.hash = o.hash ∧ ∃ out, tx.vout[o.n]? = some out ∧ isUnspendable out.scriptPubKey = false

/-! ## One transaction -/

theorem exists_available (h : c.isPruned = false) : ∃ n, c.isAvailable n = true := by
  by_contra hnone
  have hpruned : c.isPruned = true := by
    apply List.all_eq_true.2
    intro out hmem
    obtain ⟨n, hn⟩ := List.getElem?_of_mem hmem
    by_contra hnull
    refine hnone ⟨n, ?_⟩
    simpa [CCoins.isAvailable, hn] using hnull
  simp [hpruned] at h

theorem isAvailable_spend {n k : Nat} (hc : Tidy c) (hout : c.isAvailable n = true) :
    (c.spend n).isAvailable k = true ↔ c.isAvailable k = true ∧ k ≠ n := by
  rw [isAvailable_iff, isAvailable_iff, entry_spend hc hout, Function.update_apply]
  split
  · next hk => simp [hk, isNull_null]
  · next hk => simp [hk]

theorem unspent_flatModify {txin : CTxIn} (hm : TidyCoins m) (hc : m txin.prevout.hash = some c)
    (hout : c.isAvailable txin.prevout.n = true) :
    Unspent (flatModify m txin.prevout.hash (·.spend txin.prevout.n)) o ↔ Unspent m o ∧ o ≠ txin.prevout := by
  obtain ⟨hash, k⟩ := o
  unfold Unspent flatModify
  by_cases hhash : hash = txin.prevout.hash
  · subst hhash
    have htidy := hm _ c hc
    have hne : COutPoint.mk txin.prevout.hash k ≠ txin.prevout ↔ k ≠ txin.prevout.n := by
      constructor
      · intro hne heq
        exact hne (by rw [heq])
      · intro hne heq
        exact hne (congrArg COutPoint.n heq)
    rw [Function.update_self, hc, modified_spend htidy hout, hne]
    simp only [Option.some.injEq, exists_eq_left', ← isAvailable_spend htidy hout]
    split
    · next hnil =>
      have hnone : (c.spend txin.prevout.n).isAvailable k = false := by simp [CCoins.isAvailable, hnil]
      simp [hnone]
    · simp
  · have hne : COutPoint.mk hash k ≠ txin.prevout := fun heq => hhash (congrArg COutPoint.hash heq)
    rw [Function.update_of_ne hhash, and_iff_left hne]

theorem unspent_flatSpend {vin : List CTxIn} {view' : FlatView} {us : CTxUndo} (hm : ChainCoins m)
    (h : spendInputs (⟨m, b⟩ : FlatView) vin = some (view', us)) :
    (∀ txin ∈ vin, Unspent m txin.prevout) ∧ ∀ o, Unspent (flatSpend m vin) o ↔ Unspent m o ∧ o ∉ vin.map CTxIn.prevout := by
  induction vin generalizing m us with
  | nil => exact ⟨nofun, fun o => by simp [flatSpend]⟩
  | cons txin vin ih =>
    obtain ⟨view₁, undo, us', hinput, hrest, rfl⟩ := spendInputs_cons h
    obtain ⟨c, hc, hout, rfl, -⟩ := spendInput_flat hinput
    obtain ⟨hall, hafter⟩ := ih (tidy_flatModify_spend hm hc hout) hrest
    constructor
    · intro input hmem
      rcases List.mem_cons.1 hmem with rfl | hmem
      · exact ⟨c, hc, hout⟩
      · exact ((unspent_flatModify hm.tidy hc hout).1 (hall input hmem)).1
    · intro o
      have hcons : flatSpend m (txin :: vin) = flatSpend (flatModify m txin.prevout.hash (·.spend txin.prevout.n)) vin := rfl
      rw [hcons, hafter, unspent_flatModify hm.tidy hc hout, List.map_cons, List.mem_cons, not_or, and_assoc]

theorem unspent_fromTx (hv : ∀ out ∈ tx.vout, 0 ≤ out.nValue) (n : Nat) :
    (∃ c, (CCoins.fromTx tx nHeight).unspent = some c ∧ c.isAvailable n = true) ↔
      ∃ out, tx.vout[n]? = some out ∧ isUnspendable out.scriptPubKey = false := by
  have havailable : (CCoins.fromTx tx nHeight).isAvailable n = true ↔ ∃ out, tx.vout[n]? = some out ∧
    isUnspendable out.scriptPubKey = false := by
    rw [isAvailable_iff, fromTx_vout, entry_rdropWhile (exact_spendable hv), entry, List.getElem?_map]
    cases hout : tx.vout[n]? with
    | none => simp [isNull_null]
    | some out => simp [isNull_spendable (hv out (List.mem_of_getElem? hout))]
  rw [← havailable]
  constructor
  · rintro ⟨c, hc, hout⟩
    obtain ⟨-, rfl⟩ := CCoins.unspent_eq_some_iff.1 hc
    exact hout
  · intro hout
    exact ⟨_, CCoins.unspent_of_not_pruned (not_pruned_of_isAvailable hout), hout⟩

/-- Behind a transaction with a new id: its inputs are spent, its outputs are there. -/
theorem unspent_flatTx {view' : FlatView} {us : CTxUndo} (hm : ChainCoins m) (hv : ∀ out ∈ tx.vout, 0 ≤ out.nValue)
    (hspend : spendInputs (⟨m, b⟩ : FlatView) (spendingInputs tx) = some (view', us)) (hnew : m tx.hash = none) :
    Unspent (flatTx nHeight m tx) o ↔ (Unspent m o ∧ ¬ Spends tx o) ∨ Creates tx o := by
  obtain ⟨-, hafter⟩ := unspent_flatSpend hm hspend
  have hrest := hafter o
  unfold Unspent Creates at *
  unfold flatTx
  rw [Function.update_apply]
  by_cases hhash : o.hash = tx.hash
  · rw [if_pos hhash, unspent_fromTx hv, hhash, hnew]
    simp
  · have hne : tx.hash ≠ o.hash := fun heq => hhash heq.symm
    rw [if_neg hhash, hrest]
    simp [hne, Spends]

/-! ## The ledger of a chain -/

structure Ledger (txs : List CTransaction) (m : Uint256 → Option CCoins) : Prop where
  unspent : ∀ o, Unspent m o ↔ (∃ tx ∈ txs, Creates tx o) ∧ ¬ ∃ tx ∈ txs, Spends tx o
  /-- What is spent was created by one of them. -/
  known : ∀ tx ∈ txs, ∀ o, Spends tx o → ∃ tx' ∈ txs, tx'.hash = o.hash

theorem ledger_nil : Ledger [] fun _ => none where
  unspent o := by simp [Unspent]
  known _ h := by simp at h

theorem Ledger.of_mem {txs' : List CTransaction} (h : Ledger txs m) (hmem : ∀ tx, tx ∈ txs' ↔ tx ∈ txs) : Ledger txs' m where
  unspent o := by simpa only [hmem] using h.unspent o
  known tx htx o ho := by simpa only [hmem] using h.known tx ((hmem tx).1 htx) o ho

theorem Ledger.none (h : Ledger txs m) (hm : TidyCoins m) {txid : Uint256} (hfresh : ∀ tx ∈ txs, tx.hash ≠ txid) :
    m txid = none := by
  cases hc : m txid with
  | none => rfl
  | some c =>
    obtain ⟨n, hn⟩ := exists_available (hm txid c hc).unspent
    obtain ⟨⟨tx, htx, hcreates, -⟩, -⟩ := (h.unspent ⟨txid, n⟩).1 ⟨c, hc, hn⟩
    exact absurd hcreates (hfresh tx htx)

theorem Ledger.connect {view' : FlatView} {us : CTxUndo} (h : Ledger txs m) (hm : ChainCoins m)
    (hv : ∀ out ∈ tx.vout, 0 ≤ out.nValue)
    (hspend : spendInputs (⟨m, b⟩ : FlatView) (spendingInputs tx) = some (view', us)) (hfresh : ∀ tx' ∈ txs, tx'.hash ≠ tx.hash) :
    Ledger (tx :: txs) (flatTx nHeight m tx) := by
  obtain ⟨hall, -⟩ := unspent_flatSpend hm hspend
  -- the transactions that create what this one spends have other ids
  have hinputs : ∀ o, Spends tx o → ∃ tx' ∈ txs, tx'.hash = o.hash := by
    intro o ho
    obtain ⟨txin, hmem, rfl⟩ := List.mem_map.1 ho
    obtain ⟨⟨tx', htx', hcreates, -⟩, -⟩ := (h.unspent _).1 (hall txin hmem)
    exact ⟨tx', htx', hcreates⟩
  have hnot (o : COutPoint) (ho : Creates tx o) : ¬ ∃ tx' ∈ tx :: txs, Spends tx' o := by
    rintro ⟨tx', hmem, hspends⟩
    obtain ⟨tx'', htx'', hhash⟩ : ∃ tx'' ∈ txs, tx''.hash = o.hash := by
      rcases List.mem_cons.1 hmem with rfl | hmem
      · exact hinputs o hspends
      · exact h.known tx' hmem o hspends
    exact hfresh tx'' htx'' (hhash.trans ho.1.symm)
  constructor
  · intro o
    rw [unspent_flatTx hm hv hspend (h.none hm.tidy hfresh), h.unspent o]
    simp only [List.mem_cons, exists_eq_or_imp] at hnot ⊢
    constructor
    · rintro (⟨⟨hcreated, hunspent⟩, hthis⟩ | hcreates)
      · exact ⟨.inr hcreated, fun hs => hs.elim hthis hunspent⟩
      · exact ⟨.inl hcreates, hnot o hcreates⟩
    · rintro ⟨hcreates | hcreated, hunspent⟩
      · exact .inr hcreates
      · exact .inl ⟨⟨hcreated, fun hs => hunspent (.inr hs)⟩, fun hs => hunspent (.inl hs)⟩
  · intro tx' hmem o ho
    obtain ⟨tx'', htx'', hhash⟩ : ∃ tx'' ∈ txs, tx''.hash = o.hash := by
      rcases List.mem_cons.1 hmem with rfl | hmem
      · exact hinputs o ho
      · exact h.known tx' hmem o ho
    exact ⟨tx'', List.mem_cons_of_mem tx htx'', hhash⟩

/-- A transaction whose inputs are there has an id that none of the chain has, but for a
    collision: with equal inputs the other one would have spent them. -/
theorem Ledger.fresh (h : Ledger txs m) (hbase : tx.isCoinBase = false) (hvin : tx.vin ≠ [])
    (hinputs : flatHaveInputs m tx = true)
    (hcollision : ∀ tx' ∈ txs, tx'.hash = tx.hash → tx'.vin = tx.vin) : ∀ tx' ∈ txs, tx'.hash ≠ tx.hash := by
  intro tx' htx' hhash
  obtain ⟨txin, vin, heq⟩ := List.exists_cons_of_ne_nil hvin
  have hsame := hcollision tx' htx' hhash
  have hbase' : tx'.isCoinBase = false := by
    unfold CTransaction.isCoinBase at hbase ⊢
    rw [hsame, hbase]
  have hspends : Spends tx' txin.prevout := by
    simp [Spends, spendingInputs, hbase', hsame, heq]
  have hthere : Unspent m txin.prevout := by
    rw [flatHaveInputs, hbase, Bool.false_or, heq, List.all_cons, Bool.and_eq_true] at hinputs
    obtain ⟨c, hc, hout⟩ := (Option.any_eq_true _ _).1 hinputs.1
    exact ⟨c, hc, hout⟩
  exact ((h.unspent _).1 hthere).2 ⟨tx', htx', hspends⟩

/-- The outputs that are unspent behind a block, whose transactions have new ids: those before
    it but for the ones it spends, and the ones it creates. -/
theorem Ledger.append {vtx : List CTransaction} (h : Ledger txs m) (h' : Ledger (vtx ++ txs) X)
    (hfresh : ∀ tx ∈ vtx, ∀ tx' ∈ txs, tx'.hash ≠ tx.hash)
    (o : COutPoint) : Unspent X o ↔ (Unspent m o ∨ ∃ tx ∈ vtx, Creates tx o) ∧ ¬ ∃ tx ∈ vtx, Spends tx o := by
  have hany (p : CTransaction → Prop) : (∃ tx ∈ vtx ++ txs, p tx) ↔ (∃ tx ∈ vtx, p tx) ∨ ∃ tx ∈ txs, p tx := by
    simp only [List.mem_append, or_and_right, exists_or]
  rw [h'.unspent, h.unspent, hany, hany, not_or]
  constructor
  · rintro ⟨hcreated, hblock, hchain⟩
    rcases hcreated with hcreated | hcreated
    · exact ⟨.inr hcreated, hblock⟩
    · exact ⟨.inl ⟨hcreated, hchain⟩, hblock⟩
  · rintro ⟨⟨hcreated, hchain⟩ | hcreated, hblock⟩
    · exact ⟨.inr hcreated, hblock, hchain⟩
    · refine ⟨.inl hcreated, hblock, ?_⟩
      -- what the chain spends has the id of a transaction of the chain
      rintro ⟨tx', htx', hspends⟩
      obtain ⟨tx, htx, hcreates⟩ := hcreated
      obtain ⟨tx'', htx'', hhash⟩ := h.known tx' htx' o hspends
      exact hfresh tx htx tx'' htx'' (hhash.trans hcreates.1.symm)

end Zumy.Blocks
