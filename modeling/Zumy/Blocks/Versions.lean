/-
  Zumy.Blocks.Versions — coins that are the same but for the versions undo data loses.

  Two views with the same coins but for the versions of `patched` transactions stay so when
  the same transactions are connected (`Same.flatTxs`). If every negative version is of such
  a transaction (`Covers`), transactions with new ids are restorable (`txsRestorable_of_new`).
-/
import Zumy.Blocks.Ledger

namespace Zumy.Blocks

open Zumy.Coins Zumy.Lib CoinsView

variable {v : Bool} {a a' a'' : Option CCoins} {m m' m'' : Uint256 → Option CCoins} {patched : Uint256 → Bool} {tx : CTransaction}
variable {txs vtx : List CTransaction} {nHeight : Int}

/-! ## The same but for versions -/

theorem SameBut.symm (h : SameBut v a a') : SameBut v a' a := by
  cases a with
  | none =>
    rw [sameBut_none_left.1 h]
    trivial
  | some c =>
    cases a' with
    | none => exact h.elim
    | some c' => exact ⟨h.1.symm, h.2.1.symm, h.2.2.1.symm, h.2.2.2.imp_right Eq.symm⟩

theorem SameBut.trans (h : SameBut v a a') (h' : SameBut v a' a'') : SameBut v a a'' := by
  cases a' with
  | none =>
    rw [sameBut_none_right.1 h, sameBut_none_left.1 h']
    trivial
  | some c' =>
    cases a with
    | none => exact h.elim
    | some c =>
      cases a'' with
      | none => exact h'.elim
      | some c'' =>
        refine ⟨h.1.trans h'.1, h.2.1.trans h'.2.1, h.2.2.1.trans h'.2.2.1, ?_⟩
        rcases h.2.2.2 with hv | hversion
        · exact .inl hv
        · exact h'.2.2.2.imp_right hversion.trans

theorem Same.symm (h : Same patched m m') : Same patched m' m := fun k => (h k).symm

theorem Same.trans (h : Same patched m m') (h' : Same patched m' m'') : Same patched m m'' := fun k => (h k).trans (h' k)

theorem modified_spend_version (c : CCoins) (n : Nat) (nVersion : Int) :
    CCoins.modified (·.spend n) (some { c with nVersion }) = (CCoins.modified (·.spend n) (some c)).map fun c =>
      { c with nVersion } := by
  have hspend : ({ c with nVersion } : CCoins).spend n = { c.spend n with nVersion } := by
    unfold CCoins.spend
    change (if c.isAvailable n then _ else _) = _
    split <;> rfl
  change (({ c with nVersion } : CCoins).spend n).cleanup.unspent = (c.spend n).cleanup.unspent.map _
  rw [hspend]
  unfold CCoins.unspent
  change (if (c.spend n).cleanup.isPruned then none else _) = _
  split <;> rfl

theorem SameBut.spend (h : SameBut v a a') (n : Nat) :
    SameBut v (CCoins.modified (·.spend n) a) (CCoins.modified (·.spend n) a') := by
  cases a with
  | none =>
    rw [sameBut_none_left.1 h]
    exact SameBut.refl v _
  | some c =>
    cases a' with
    | none => exact h.elim
    | some c' =>
      obtain ⟨hbase, hvout, hheight, hversion⟩ := h
      have hc' : c' = { c with nVersion := c'.nVersion } := by
        obtain ⟨_, _, _, _⟩ := c
        obtain ⟨_, _, _, _⟩ := c'
        simp only at hbase hvout hheight
        rw [hbase, hvout, hheight]
      have hself : CCoins.modified (·.spend n)
          (some c) = (CCoins.modified (·.spend n) (some c)).map fun c₁ => { c₁ with nVersion := c.nVersion } :=
        modified_spend_version c n c.nVersion
      rw [hc', modified_spend_version c n c'.nVersion]
      cases hleft : CCoins.modified (·.spend n) (some c) with
      | none => trivial
      | some c₁ =>
        rw [hleft] at hself
        have hkept : c₁.nVersion = c.nVersion := by simpa using congrArg (·.map CCoins.nVersion) hself
        exact ⟨rfl, rfl, rfl, hversion.imp_right hkept.trans⟩

theorem Same.flatSpend (h : Same patched m m') (vin : List CTxIn) : Same patched (flatSpend m vin) (flatSpend m' vin) := by
  induction vin generalizing m m' with
  | nil => exact h
  | cons txin vin ih =>
    have hin : Same patched (flatModify m txin.prevout.hash (·.spend txin.prevout.n))
        (flatModify m' txin.prevout.hash (·.spend txin.prevout.n)) := by
      intro k
      unfold flatModify
      rw [Function.update_apply, Function.update_apply]
      split
      · next hk =>
        rw [hk]
        exact (h _).spend _
      · exact h k
    exact ih hin

theorem Same.flatTx (h : Same patched m m') : Same (patch patched tx) (flatTx nHeight m tx) (flatTx nHeight m' tx) := by
  intro k
  unfold Blocks.flatTx patch
  rw [Function.update_apply, Function.update_apply, Function.update_apply]
  split
  · exact SameBut.refl _ _
  · exact h.flatSpend _ k

theorem Same.flatTxs (h : Same patched m m') :
    Same (vtx.foldl patch patched) (flatTxs nHeight m vtx) (flatTxs nHeight m' vtx) := by
  induction vtx generalizing m m' patched with
  | nil => exact h
  | cons tx vtx ih => exact ih h.flatTx

theorem Same.unspent (h : Same patched m m') (o : COutPoint) : Unspent m o ↔ Unspent m' o := by
  have hone {m m' : Uint256 → Option CCoins} (h : Same patched m m') (ho : Unspent m' o) : Unspent m o := by
    obtain ⟨c, hc, hout⟩ := ho
    have hat := h o.hash
    rw [hc] at hat
    obtain ⟨c', hc', -, hvout, -⟩ := hat.some_right
    refine ⟨c', hc', ?_⟩
    rw [CCoins.isAvailable, hvout]
    exact hout
  exact ⟨hone h.symm, hone h⟩

theorem Ledger.of_same (h : Ledger txs m') (hsame : Same patched m m') : Ledger txs m :=
  ⟨fun o => (hsame.unspent o).trans (h.unspent o), h.known⟩

theorem ChainCoins.of_same (h : ChainCoins m') (hsame : Same patched m m') (htidy : TidyCoins m) : ChainCoins m where
  tidy := htidy
  height txid c hc := by
    have hat := (hsame txid).symm
    rw [hc] at hat
    obtain ⟨c', hc', -, -, hheight, -⟩ := hat.some_right
    rw [← hheight]
    exact h.height txid c' hc'

/-! ## Negative versions -/

def Covers (patched : Uint256 → Bool) (m : Uint256 → Option CCoins) : Prop :=
  ∀ txid c, m txid = some c → patched txid = true ∨ 0 ≤ c.nVersion

theorem Covers.of_same (h : Covers patched m') (hsame : Same patched m m') : Covers patched m := by
  intro txid c hc
  have hat := (hsame txid).symm
  rw [hc] at hat
  obtain ⟨c', hc', -, -, -, hversion⟩ := hat.some_right
  rcases hversion with hpatched | hversion
  · exact .inl hpatched
  · rw [← hversion]
    exact h txid c' hc'

theorem modified_spend_none (n : Nat) : CCoins.modified (·.spend n) none = none := rfl

theorem Covers.spend (h : Covers patched m) (txid : Uint256) (n : Nat) : Covers patched (flatModify m txid (·.spend n)) := by
  intro k c hc
  unfold flatModify at hc
  rw [Function.update_apply] at hc
  split at hc
  · next hk =>
    rw [hk]
    cases hm : m txid with
    | none =>
      rw [hm, modified_spend_none] at hc
      cases hc
    | some c' =>
      rw [hm] at hc
      obtain ⟨-, rfl⟩ := CCoins.unspent_eq_some_iff.1 hc
      have hversion : ((c'.spend n).cleanup).nVersion = c'.nVersion := spend_nVersion c' n
      change _ ∨ 0 ≤ ((c'.spend n).cleanup).nVersion
      rw [hversion]
      exact h txid c' hm
  · exact h k c hc

theorem Covers.flatSpend (h : Covers patched m) (vin : List CTxIn) : Covers patched (flatSpend m vin) := by
  induction vin generalizing m with
  | nil => exact h
  | cons txin vin ih => exact ih (h.spend _ _)

theorem Covers.inputsKept (h : Covers patched m) (vin : List CTxIn) : InputsKept patched m vin := by
  induction vin generalizing m with
  | nil => trivial
  | cons txin vin ih => exact ⟨fun c hc _ => h _ c hc, ih (h.spend _ _)⟩

theorem Covers.flatTx (h : Covers patched m) : Covers (patch patched tx) (flatTx nHeight m tx) := by
  intro k c hc
  unfold Blocks.flatTx at hc
  unfold patch
  rw [Function.update_apply] at hc ⊢
  split at hc
  · next hk =>
    obtain ⟨-, rfl⟩ := CCoins.unspent_eq_some_iff.1 hc
    rw [if_pos hk, decide_eq_true_eq, fromTx_nVersion]
    exact lt_or_ge tx.nVersion 0
  · next hk =>
    rw [if_neg hk]
    exact h.flatSpend _ k c hc

theorem Covers.flatTxs (h : Covers patched m) : Covers (vtx.foldl patch patched) (flatTxs nHeight m vtx) := by
  induction vtx generalizing m patched with
  | nil => exact h
  | cons tx vtx ih => exact ih h.flatTx

/-! ## New transactions -/

theorem flatSpend_none {txid : Uint256} (h : m txid = none) (vin : List CTxIn) : flatSpend m vin txid = none := by
  induction vin generalizing m with
  | nil => exact h
  | cons txin vin ih =>
    refine ih (m := flatModify m txin.prevout.hash _) ?_
    unfold flatModify
    rw [Function.update_apply]
    split
    · next hk => rw [← hk, h, modified_spend_none]
    · exact h

def NewTxs (nHeight : Int) : (Uint256 → Option CCoins) → List CTransaction → Prop
  | _, [] => True
  | m, tx :: vtx => m tx.hash = none ∧ NewTxs nHeight (flatTx nHeight m tx) vtx

theorem txsRestorable_of_new (h : Covers patched m) (hnew : NewTxs nHeight m vtx) : TxsRestorable nHeight patched m vtx := by
  induction vtx generalizing m patched with
  | nil => trivial
  | cons tx vtx ih => exact ⟨⟨h.inputsKept _, flatSpend_none hnew.1 _⟩, ih h.flatTx hnew.2⟩

end Zumy.Blocks
