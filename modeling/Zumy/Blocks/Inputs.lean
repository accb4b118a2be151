/-
  Zumy.Blocks.Inputs — an input is spent, and its output put back.

  The view is the flat map. `ApplyTxInUndo`, where it finds nothing wrong, is the inverse of
  `UpdateCoins` on one input: it gives back the coins before the input was spent just where
  it starts from the coins behind it and the version of the coins comes back.

  (1) One input (`restore_input_iff`): where it spent the last output of its transaction,
      the version is in the undo data, as what `VARINT` makes of it.
  (2) The loop over the inputs (`restoreInputs_iff`).

  Coins are compared but for the versions of `patched` transactions: `DisconnectBlock` sets
  the version of the block's own where it is negative.
-/
import Zumy.Lib.Trim
import Zumy.Blocks.Model

namespace Zumy.Blocks

open Zumy.Coins Zumy.Lib CoinsView

/-! ## Coins -/

/-- The coins of a view: spent outputs are null and not at the end, no output is unspendable. -/
structure Tidy (c : CCoins) : Prop where
  vout : Trimmed CTxOut.isNull .null c.vout
  spendable : ∀ out ∈ c.vout, isUnspendable out.scriptPubKey = false
  unspent : c.isPruned = false

def TidyCoins (m : Uint256 → Option CCoins) : Prop := ∀ txid c, m txid = some c → Tidy c

structure ChainCoins (m : Uint256 → Option CCoins) : Prop where
  tidy : TidyCoins m
  height : ∀ txid c, m txid = some c → 0 < c.nHeight

theorem chainCoins_single {txid : Uint256} {c : CCoins} (htidy : Tidy c) (hheight : 0 < c.nHeight) :
    ChainCoins (Function.update (fun _ => none) txid (some c)) := by
  have hcoins (txid' : Uint256) (c' : CCoins) (h : Function.update (fun _ => none) txid (some c) txid' = some c') : c' = c := by
    rw [Function.update_apply] at h
    split at h
    · cases h
      rfl
    · cases h
  constructor
  · intro txid' c' h
    rw [hcoins txid' c' h]
    exact htidy
  · intro txid' c' h
    rw [hcoins txid' c' h]
    exact hheight

/-- Equal coins, but for the version where `v` holds. -/
def SameBut (v : Bool) : Option CCoins → Option CCoins → Prop
  | none, none => True
  | some a, some b => a.fCoinBase = b.fCoinBase ∧ a.vout = b.vout ∧ a.nHeight = b.nHeight ∧ (v = true ∨ a.nVersion = b.nVersion)
  | _, _ => False

theorem isNull_null : CTxOut.null.isNull = true := rfl

section SameBut

variable {v : Bool} {a b : Option CCoins} {c c' : CCoins}

theorem SameBut.refl (v : Bool) (a : Option CCoins) : SameBut v a a := by
  cases a with
  | none => trivial
  | some c => exact ⟨rfl, rfl, rfl, .inr rfl⟩

theorem sameBut_false_iff : SameBut false a b ↔ a = b := by
  constructor
  · intro h
    cases a with
    | none =>
      cases b with
      | none => rfl
      | some c' => exact h.elim
    | some c =>
      cases b with
      | none => exact h.elim
      | some c' =>
        obtain ⟨hbase, hvout, hheight, hversion⟩ := h
        have hversion := hversion.resolve_left Bool.false_ne_true
        obtain ⟨_, _, _, _⟩ := c
        obtain ⟨_, _, _, _⟩ := c'
        simp only at hbase hvout hheight hversion
        rw [hbase, hvout, hheight, hversion]
  · rintro rfl
    exact SameBut.refl false a

theorem sameBut_none_left : SameBut v none b ↔ b = none := by
  cases b with
  | none => exact ⟨fun _ => rfl, fun _ => trivial⟩
  | some c => exact ⟨fun h => h.elim, fun h => by cases h⟩

theorem sameBut_none_right : SameBut v a none ↔ a = none := by
  cases a with
  | none => exact ⟨fun _ => rfl, fun _ => trivial⟩
  | some c => exact ⟨fun h => h.elim, fun h => by cases h⟩

theorem SameBut.some_right (h : SameBut v a (some c)) : ∃ c', a = some c' ∧ c'.fCoinBase = c.fCoinBase ∧ c'.vout = c.vout ∧
    c'.nHeight = c.nHeight ∧ (v = true ∨ c'.nVersion = c.nVersion) := by
  cases a with
  | none => exact h.elim
  | some c' => exact ⟨c', rfl, h⟩

end SameBut

section Coins

variable {c : CCoins} {n : Nat} {txout : CTxOut}

theorem isAvailable_iff : c.isAvailable n = true ↔ (entry CTxOut.null c.vout n).isNull = false := by
  unfold CCoins.isAvailable entry
  cases c.vout[n]? with
  | none => simp [isNull_null]
  | some out => simp

theorem Tidy.entry_null (h : Tidy c) (hout : c.isAvailable n = false) : entry CTxOut.null c.vout n = .null := by
  by_cases hn : n < c.vout.length
  · rw [entry_of_lt hn]
    apply h.vout.exact _ (List.getElem_mem hn)
    rw [← entry_of_lt (z := CTxOut.null) hn]
    by_contra hunspent
    exact absurd (isAvailable_iff.2 (by simpa using hunspent)) (by simp [hout])
  · exact entry_of_le (Nat.le_of_not_lt hn)

theorem isPruned_iff (h : Trimmed CTxOut.isNull .null c.vout) : c.isPruned = true ↔ c.vout = [] := by
  constructor
  · intro hpruned
    rw [← h.last]
    exact List.rdropWhile_eq_nil_iff.2 (List.all_eq_true.1 hpruned)
  · intro hnil
    rw [CCoins.isPruned, hnil]
    rfl

theorem spend_eq (h : c.isAvailable n = true) : c.spend n = { c with vout := (c.vout.set n .null).rdropWhile CTxOut.isNull } := by
  rw [CCoins.spend, if_pos h]
  rfl

theorem lt_of_isAvailable (h : c.isAvailable n = true) : n < c.vout.length := by
  by_contra hn
  rw [isAvailable_iff, entry_of_le (Nat.le_of_not_lt hn)] at h
  cases h

theorem entry_spend (h : Tidy c) (hout : c.isAvailable n = true) :
    entry CTxOut.null (c.spend n).vout = Function.update (entry CTxOut.null c.vout) n .null := by
  have hexact : Exact CTxOut.isNull CTxOut.null (c.vout.set n .null) := Exact.set h.vout.exact fun _ => rfl
  rw [spend_eq hout]
  dsimp only
  rw [entry_rdropWhile hexact, entry_set (lt_of_isAvailable hout)]

theorem trimmed_spend (h : Tidy c) (hout : c.isAvailable n = true) : Trimmed CTxOut.isNull .null (c.spend n).vout := by
  rw [spend_eq hout]
  exact trimmed_rdropWhile (Exact.set h.vout.exact fun _ => rfl)

theorem cleanup_of_trimmed (h : Trimmed CTxOut.isNull .null c.vout) : c.cleanup = c := by
  obtain ⟨fCoinBase, vout, nHeight, nVersion⟩ := c
  rw [CCoins.cleanup]
  dsimp only
  rw [h.last]

theorem modified_spend (h : Tidy c) (hout : c.isAvailable n = true) :
    CCoins.modified (·.spend n) (some c) = if (c.spend n).vout = [] then none else some (c.spend n) := by
  have htrimmed := trimmed_spend h hout
  unfold CCoins.modified
  rw [Option.getD_some, cleanup_of_trimmed htrimmed]
  by_cases hnil : (c.spend n).vout = []
  · rw [if_pos hnil, CCoins.unspent_of_pruned ((isPruned_iff htrimmed).2 hnil)]
  · rw [if_neg hnil, CCoins.unspent_of_not_pruned (Bool.eq_false_iff.2 fun hpruned => hnil ((isPruned_iff htrimmed).1 hpruned))]

end Coins

/-! ## The undo data of an input -/

/-- What is read back of an input's undo data: `VARINT` keeps a version that is not negative. -/
def CTxInUndo.readBack (undo : CTxInUndo) : CTxInUndo :=
  { undo with nVersion := if 0 < undo.nHeight then throughVarInt undo.nVersion else 0 }

theorem unserialize_serialize (undo : CTxInUndo) : CTxInUndo.unserialize undo.serialize = some undo.readBack := by
  obtain ⟨txout, fCoinBase, nHeight, nVersion⟩ := undo
  have hcode (b : Nat) (hb : b ≤ 1) : (((nHeight : Int) * 2 + b).toNat / 2 = nHeight) ∧
    ((nHeight : Int) * 2 + b).toNat % 2 = b := by
    omega
  have hread (b : Nat) (rest : List UInt8) :
      readVarInt (writeVarInt ((nHeight : Int) * 2 + b) ++ rest) = some ((nHeight : Int) * 2 + b, rest) :=
    readVarInt_of_nonneg (by omega) rest
  unfold CTxInUndo.unserialize CTxInUndo.serialize CTxInUndo.readBack
  cases fCoinBase with
  | true =>
    obtain ⟨hheight, hbit⟩ := hcode 1 (by decide)
    have hread := hread 1
    simp only [Nat.cast_one] at hheight hbit hread
    simp only [if_true, hread, Option.bind_eq_bind, Option.bind_some, hheight, hbit]
    split
    · next hpos =>
      have hversion := readVarInt_writeVarInt nVersion []
      rw [List.append_nil] at hversion
      rw [hversion]
      rfl
    · rfl
  | false =>
    obtain ⟨hheight, hbit⟩ := hcode 0 (by decide)
    have hread := hread 0
    simp only [Nat.cast_zero] at hheight hbit hread
    simp only [Bool.false_eq_true, if_false, hread, Option.bind_eq_bind, Option.bind_some, hheight, hbit]
    split
    · next hpos =>
      have hversion := readVarInt_writeVarInt nVersion []
      rw [List.append_nil] at hversion
      rw [hversion]
      rfl
    · rfl

theorem read_write (blockundo : CBlockUndo) :
    CBlockUndo.read blockundo.write = some (blockundo.map (·.map CTxInUndo.readBack)) := by
  have hinputs (txundo : CTxUndo) : (txundo.map CTxInUndo.serialize).mapM CTxInUndo.unserialize =
    some (txundo.map CTxInUndo.readBack) := by
    rw [List.mapM_map]
    induction txundo with
    | nil => rfl
    | cons undo txundo ih => simp [List.mapM_cons, Function.comp, unserialize_serialize, ih]
  unfold CBlockUndo.read CBlockUndo.write
  rw [List.mapM_map]
  induction blockundo with
  | nil => rfl
  | cons txundo blockundo ih => simp [List.mapM_cons, Function.comp, hinputs, ih]

/-! ## One input -/

def undoOf (c : CCoins) (n : Nat) (txout : CTxOut) : CTxInUndo :=
  if (c.spend n).vout.length = 0 then ⟨txout, (c.spend n).fCoinBase, (c.spend n).nHeight.toNat,
    (c.spend n).nVersion⟩ else ⟨txout, false, 0, 0⟩

def undoBase (undo : CTxInUndo) (c : CCoins) : CCoins :=
  if undo.nHeight ≠ 0 then ⟨undo.fCoinBase, [], undo.nHeight, undo.nVersion⟩ else c

section Input

variable {c x : CCoins} {X : Option CCoins} {n : Nat} {undo : CTxInUndo} {v : Bool}

def putBack (undo : CTxInUndo) (n : Nat) (c : CCoins) : CCoins :=
  { undoBase undo c with vout := (setEntry .null n undo.txout (undoBase undo c).vout).rdropWhile CTxOut.isNull }

theorem exact_putBack (h : Exact CTxOut.isNull .null (undoBase undo x).vout) (hout : undo.txout.isNull = false) :
    Exact CTxOut.isNull .null (setEntry .null n undo.txout (undoBase undo x).vout) :=
  h.setEntry fun hnull => absurd hnull (by simp [hout])

theorem entry_putBack (h : Exact CTxOut.isNull .null (undoBase undo x).vout) (hout : undo.txout.isNull = false) :
    entry CTxOut.null (putBack undo n x).vout = Function.update (entry CTxOut.null (undoBase undo x).vout) n undo.txout := by
  unfold putBack
  dsimp only
  rw [entry_rdropWhile (exact_putBack h hout), entry_setEntry]

theorem trimmed_putBack (h : Exact CTxOut.isNull .null (undoBase undo x).vout) (hout : undo.txout.isNull = false) :
    Trimmed CTxOut.isNull .null (putBack undo n x).vout :=
  trimmed_rdropWhile (exact_putBack h hout)

theorem isAvailable_putBack (h : Exact CTxOut.isNull .null (undoBase undo x).vout) (hout : undo.txout.isNull = false) :
    (putBack undo n x).isAvailable n = true := by
  rw [isAvailable_iff, entry_putBack h hout, Function.update_self]
  exact hout

theorem not_pruned_of_isAvailable (h : c.isAvailable n = true) : c.isPruned = false := by
  by_contra hpruned
  rw [isAvailable_of_pruned (by simpa using hpruned)] at h
  cases h

theorem modified_applyCoins (h : Exact CTxOut.isNull .null (undoBase undo (X.getD .empty)).vout)
    (hout : undo.txout.isNull = false) :
    CCoins.modified (applyCoins undo n) X = some (putBack undo n (X.getD .empty)) := by
  have hcleanup : (applyCoins undo n (X.getD .empty)).cleanup = putBack undo n (X.getD .empty) := rfl
  unfold CCoins.modified
  rw [hcleanup, CCoins.unspent_of_not_pruned (not_pruned_of_isAvailable (isAvailable_putBack h hout))]

@[simp] theorem spend_fCoinBase (c : CCoins) (n : Nat) : (c.spend n).fCoinBase = c.fCoinBase := by
  unfold CCoins.spend
  split <;> rfl

@[simp] theorem spend_nHeight (c : CCoins) (n : Nat) : (c.spend n).nHeight = c.nHeight := by
  unfold CCoins.spend
  split <;> rfl

@[simp] theorem spend_nVersion (c : CCoins) (n : Nat) : (c.spend n).nVersion = c.nVersion := by
  unfold CCoins.spend
  split <;> rfl

theorem readBack_undoOf_last (hlast : (c.spend n).vout = []) (hheight : 0 < c.nHeight) (txout : CTxOut) :
    (undoOf c n txout).readBack = ⟨txout, c.fCoinBase, c.nHeight.toNat, throughVarInt c.nVersion⟩ := by
  have hpos : 0 < c.nHeight.toNat := by omega
  simp [undoOf, CTxInUndo.readBack, hlast, hpos]

theorem readBack_undoOf_more (hmore : (c.spend n).vout ≠ []) (txout : CTxOut) :
    (undoOf c n txout).readBack = ⟨txout, false, 0, 0⟩ := by
  have hlength : (c.spend n).vout.length ≠ 0 := by simpa using hmore
  simp [undoOf, CTxInUndo.readBack, hlength]

/-- The last output goes back where nothing is left, with the version that was read. -/
theorem apply_last_iff (hc : Tidy c) (hheight : 0 < c.nHeight) (hout : c.isAvailable n = true) (hlast : (c.spend n).vout = [])
    (hX : ∀ x, X = some x → Tidy x) :
    (applyClean (undoOf c n (entry .null c.vout n)).readBack (X.getD .empty) n = true ∧
      SameBut v (CCoins.modified (applyCoins (undoOf c n (entry .null c.vout n)).readBack n) X) (some c)) ↔
    SameBut v X none ∧ (v = true ∨ 0 ≤ c.nVersion) := by
  rw [readBack_undoOf_last hlast hheight]
  have hpos : c.nHeight.toNat ≠ 0 := by omega
  have hnull : (entry CTxOut.null c.vout n).isNull = false := isAvailable_iff.1 hout
  have hclean : applyClean ⟨entry .null c.vout n, c.fCoinBase, c.nHeight.toNat, throughVarInt c.nVersion⟩
      (X.getD .empty) n = true ↔ X = none := by
    have hempty : CCoins.empty.isAvailable n = false := rfl
    simp only [applyClean, hpos, ne_eq, not_false_eq_true, if_true, hempty, Bool.not_false, Bool.and_true]
    cases X with
    | none => exact ⟨fun _ => rfl, fun _ => rfl⟩
    | some x => simp [(hX x rfl).unspent]
  rw [hclean, sameBut_none_right]
  apply and_congr_right
  rintro rfl
  have hbase (x : CCoins) : undoBase ⟨entry .null c.vout n, c.fCoinBase, c.nHeight.toNat, throughVarInt c.nVersion⟩ x =
      ⟨c.fCoinBase, [], c.nHeight.toNat, throughVarInt c.nVersion⟩ := if_pos hpos
  have hexact : Exact CTxOut.isNull CTxOut.null (undoBase ⟨entry .null c.vout n, c.fCoinBase, c.nHeight.toNat, throughVarInt c.nVersion⟩
      ((none : Option CCoins).getD .empty)).vout := by
    rw [hbase]
    exact trimmed_nil.exact
  rw [modified_applyCoins hexact hnull]
  have hvout : (putBack ⟨entry .null c.vout n, c.fCoinBase, c.nHeight.toNat, throughVarInt c.nVersion⟩ n ((none : Option CCoins).getD .empty)).vout =
      c.vout := by
    apply Trimmed.ext isNull_null (trimmed_putBack hexact hnull) hc.vout
    rw [entry_putBack hexact hnull, hbase]
    -- nothing else was left behind the spend
    have hrest : Function.update (entry CTxOut.null c.vout) n .null = fun _ => .null := by
      rw [← entry_spend hc hout, hlast, entry_nil]
    calc Function.update (entry CTxOut.null []) n (entry CTxOut.null c.vout n)
        = Function.update (Function.update (entry CTxOut.null c.vout) n .null) n (entry CTxOut.null c.vout n) := by
          rw [hrest, entry_nil]
      _ = entry CTxOut.null c.vout := by rw [Function.update_idem, Function.update_eq_self]
  have hheader : ∀ x, (putBack ⟨entry .null c.vout n, c.fCoinBase, c.nHeight.toNat, throughVarInt c.nVersion⟩ n x).fCoinBase = c.fCoinBase ∧
      (putBack ⟨entry .null c.vout n, c.fCoinBase, c.nHeight.toNat, throughVarInt c.nVersion⟩ n x).nHeight = c.nHeight ∧
      (putBack ⟨entry .null c.vout n, c.fCoinBase, c.nHeight.toNat, throughVarInt c.nVersion⟩ n x).nVersion =
        throughVarInt c.nVersion := by
    intro x
    unfold putBack
    rw [hbase]
    exact ⟨rfl, by simp; omega, rfl⟩
  obtain ⟨hcb, hh, hv⟩ := hheader ((none : Option CCoins).getD .empty)
  simp only [SameBut, hvout, hcb, hh, hv, true_and, throughVarInt_eq_iff]

/-- Another output goes back into what is left, where it is not there already. -/
theorem apply_more_iff (hc : Tidy c) (hout : c.isAvailable n = true) (hmore : (c.spend n).vout ≠ [])
    (hX : ∀ x, X = some x → Tidy x) :
    (applyClean (undoOf c n (entry .null c.vout n)).readBack (X.getD .empty) n = true ∧
      SameBut v (CCoins.modified (applyCoins (undoOf c n (entry .null c.vout n)).readBack n) X) (some c)) ↔
    SameBut v X (some (c.spend n)) := by
  rw [readBack_undoOf_more hmore]
  have hnull : (entry CTxOut.null c.vout n).isNull = false := isAvailable_iff.1 hout
  have hclean (x : CCoins) : applyClean ⟨entry .null c.vout n, false, 0, 0⟩ x n = (!x.isPruned && !x.isAvailable n) := rfl
  rw [hclean]
  cases X with
  | none =>
    constructor
    · intro h
      have hnothing : ((none : Option CCoins).getD .empty).isPruned = true := rfl
      rw [hnothing] at h
      exact absurd h.1 Bool.false_ne_true
    · intro h
      exact h.elim
  | some x =>
    have hx := hX x rfl
    have hbase : undoBase ⟨entry .null c.vout n, false, 0, 0⟩ x = x := rfl
    have hexact : Exact CTxOut.isNull CTxOut.null (undoBase ⟨entry .null c.vout n, false, 0, 0⟩ x).vout := hx.vout.exact
    rw [modified_applyCoins (X := some x) hexact hnull, Option.getD_some]
    have hentry := entry_putBack (n := n) hexact hnull
    have htrimmed := trimmed_putBack (n := n) hexact hnull
    rw [hbase] at hentry
    have hvout : (x.isAvailable n = false ∧ (putBack ⟨entry .null c.vout n, false, 0, 0⟩ n x).vout = c.vout) ↔
      x.vout = (c.spend n).vout := by
      constructor
      · rintro ⟨hfree, hback⟩
        apply Trimmed.ext isNull_null hx.vout (trimmed_spend hc hout)
        have hself : Function.update (entry CTxOut.null x.vout) n .null = entry CTxOut.null x.vout :=
          Function.update_eq_self_iff.2 (hx.entry_null hfree).symm
        rw [entry_spend hc hout, ← hback, hentry, Function.update_idem, hself]
      · intro heq
        have hfree : x.isAvailable n = false := by
          rw [← Bool.not_eq_true, isAvailable_iff, heq, entry_spend hc hout, Function.update_self]
          decide
        refine ⟨hfree, Trimmed.ext isNull_null htrimmed hc.vout ?_⟩
        rw [hentry, heq, entry_spend hc hout, Function.update_idem, Function.update_eq_self]
    have hheader : (putBack ⟨entry .null c.vout n, false, 0, 0⟩ n x).fCoinBase = x.fCoinBase ∧
        (putBack ⟨entry .null c.vout n, false, 0, 0⟩ n x).nHeight = x.nHeight ∧
        (putBack ⟨entry .null c.vout n, false, 0, 0⟩ n x).nVersion = x.nVersion := ⟨rfl, rfl, rfl⟩
    simp only [SameBut, hheader, hx.unspent, Bool.not_false, Bool.true_and, spend_fCoinBase, spend_nHeight,
      spend_nVersion, ← hvout,
      Bool.not_eq_true']
    constructor
    · rintro ⟨hfree, hbase, hback, hrest⟩
      exact ⟨hbase, ⟨hfree, hback⟩, hrest⟩
    · rintro ⟨hbase, ⟨hfree, hback⟩, hrest⟩
      exact ⟨hfree, hbase, hback, hrest⟩

theorem tidy_spend (hc : Tidy c) (hout : c.isAvailable n = true) (hmore : (c.spend n).vout ≠ []) : Tidy (c.spend n) where
  vout := trimmed_spend hc hout
  spendable out hmem := by
    rw [spend_eq hout] at hmem
    rcases List.mem_or_eq_of_mem_set (mem_rdropWhile hmem) with hmem | rfl
    · exact hc.spendable out hmem
    · rfl
  unspent := Bool.eq_false_iff.2 fun hpruned => hmore ((isPruned_iff (trimmed_spend hc hout)).1 hpruned)

theorem tidy_putBack (hx : Tidy x ∨ x = .empty) (hout : undo.txout.isNull = false)
    (hspendable : isUnspendable undo.txout.scriptPubKey = false) :
    Tidy (putBack undo n x) := by
  have hbase : Trimmed CTxOut.isNull .null (undoBase undo x).vout ∧
    ∀ out ∈ (undoBase undo x).vout, isUnspendable out.scriptPubKey = false := by
    unfold undoBase
    split
    · exact ⟨trimmed_nil, fun out hmem => by simp at hmem⟩
    · rcases hx with hx | rfl
      · exact ⟨hx.vout, hx.spendable⟩
      · exact ⟨trimmed_nil, fun out hmem => by simp [CCoins.empty] at hmem⟩
  refine ⟨trimmed_putBack hbase.1.exact hout, ?_, not_pruned_of_isAvailable (isAvailable_putBack hbase.1.exact hout)⟩
  intro out hmem
  rcases mem_setEntry (mem_rdropWhile hmem) with hmem | rfl | rfl
  · exact hbase.2 out hmem
  · rfl
  · exact hspendable

end Input

/-! ## The inputs of a transaction -/

section Inputs

variable {m m' X : Uint256 → Option CCoins} {b b' : Uint256} {patched : Uint256 → Bool} {txin : CTxIn} {txid : Uint256}
    {a : Option CCoins}

def Same (patched : Uint256 → Bool) (X m : Uint256 → Option CCoins) : Prop := ∀ txid, SameBut (patched txid) (X txid) (m txid)

theorem same_update_left : Same patched (Function.update X txid a) m ↔
    SameBut (patched txid) a (m txid) ∧ ∀ k, k ≠ txid → SameBut (patched k) (X k) (m k) := by
  constructor
  · intro h
    refine ⟨by simpa using h txid, fun k hk => by simpa [hk] using h k⟩
  · rintro ⟨hat, hrest⟩ k
    by_cases hk : k = txid
    · subst hk
      simpa using hat
    · simpa [hk] using hrest k hk

theorem same_update_right : Same patched X (Function.update m txid a) ↔
    SameBut (patched txid) (X txid) a ∧ ∀ k, k ≠ txid → SameBut (patched k) (X k) (m k) := by
  constructor
  · intro h
    refine ⟨by simpa using h txid, fun k hk => by simpa [hk] using h k⟩
  · rintro ⟨hat, hrest⟩ k
    by_cases hk : k = txid
    · subst hk
      simpa using hat
    · simpa [hk] using hrest k hk

theorem spendInput_flat {view' : FlatView} {undo : CTxInUndo} (h : spendInput (⟨m, b⟩ : FlatView) txin = some (view', undo)) :
    ∃ c, m txin.prevout.hash = some c ∧ c.isAvailable txin.prevout.n = true ∧
      view' = ⟨flatModify m txin.prevout.hash (·.spend txin.prevout.n), b⟩ ∧
      undo = undoOf c txin.prevout.n (entry .null c.vout txin.prevout.n) := by
  unfold spendInput modifying at h
  dsimp only at h
  cases hm : m txin.prevout.hash with
  | none =>
    have hnothing : ((getCoins (⟨m, b⟩ : FlatView) txin.prevout.hash).getD .empty).vout[txin.prevout.n]? = none := by
      simp [getCoins, hm, CCoins.empty]
    rw [hnothing] at h
    cases h
  | some c =>
    have hcoins : (getCoins (⟨m, b⟩ : FlatView) txin.prevout.hash).getD .empty = c := by simp [getCoins, hm]
    rw [hcoins] at h
    split at h
    · cases h
    · next txout hout =>
      split at h
      · cases h
      · next hunspent =>
        have hentry : entry CTxOut.null c.vout txin.prevout.n = txout := by simp [entry, hout]
        refine ⟨c, rfl, isAvailable_iff.2 (by simpa [hentry] using hunspent), ?_⟩
        rw [hentry]
        cases h
        exact ⟨rfl, rfl⟩

/-- The version of coins whose last output is spent comes back: it is not negative, or
    `DisconnectBlock` sets it. -/
def VersionKept (patched : Uint256 → Bool) (m : Uint256 → Option CCoins) (txin : CTxIn) : Prop :=
  ∀ c, m txin.prevout.hash = some c → (c.spend txin.prevout.n).vout = [] → patched txin.prevout.hash = true ∨ 0 ≤ c.nVersion

theorem tidy_flatModify_spend (hm : ChainCoins m) {c : CCoins} (hc : m txin.prevout.hash = some c)
    (hout : c.isAvailable txin.prevout.n = true) :
    ChainCoins (flatModify m txin.prevout.hash (·.spend txin.prevout.n)) := by
  have htidy := hm.tidy _ c hc
  have hnew (k : Uint256) (c' : CCoins) (hk : flatModify m txin.prevout.hash (·.spend txin.prevout.n) k = some c') :
      Tidy c' ∧ 0 < c'.nHeight := by
    unfold flatModify at hk
    rw [Function.update_apply] at hk
    split at hk
    · rw [hc, modified_spend htidy hout] at hk
      split at hk
      · cases hk
      · next hmore =>
        cases hk
        exact ⟨tidy_spend htidy hout hmore, by simpa using hm.height _ c hc⟩
    · exact ⟨hm.tidy k c' hk, hm.height k c' hk⟩
  exact ⟨fun k c' hk => (hnew k c' hk).1, fun k c' hk => (hnew k c' hk).2⟩

theorem tidy_flatModify_apply (hX : TidyCoins X) {undo : CTxInUndo} {n : Nat} (hout : undo.txout.isNull = false)
    (hspendable : isUnspendable undo.txout.scriptPubKey = false) : TidyCoins (flatModify X txid (applyCoins undo n)) := by
  intro k c hk
  unfold flatModify at hk
  rw [Function.update_apply] at hk
  split at hk
  · have hbase : Tidy ((X txid).getD .empty) ∨ (X txid).getD .empty = .empty := by
      cases hx : X txid with
      | none => exact .inr rfl
      | some x => exact .inl (hX txid x hx)
    have hexact : Exact CTxOut.isNull CTxOut.null (undoBase undo ((X txid).getD .empty)).vout := by
      unfold undoBase
      split
      · exact trimmed_nil.exact
      · rcases hbase with hbase | hbase
        · exact hbase.vout.exact
        · rw [hbase]
          exact trimmed_nil.exact
    rw [modified_applyCoins hexact hout] at hk
    cases hk
    exact tidy_putBack hbase hout hspendable
  · exact hX k c hk

theorem txout_readBack {c : CCoins} {n : Nat} (hc : Tidy c) (hout : c.isAvailable n = true) :
    (undoOf c n (entry .null c.vout n)).readBack.txout.isNull = false ∧
      isUnspendable (undoOf c n (entry .null c.vout n)).readBack.txout.scriptPubKey = false := by
  have htxout : (undoOf c n (entry .null c.vout n)).readBack.txout = entry .null c.vout n := by
    unfold undoOf CTxInUndo.readBack
    split <;> rfl
  rw [htxout]
  refine ⟨isAvailable_iff.1 hout, hc.spendable _ ?_⟩
  rw [entry_of_lt (lt_of_isAvailable hout)]
  exact List.getElem_mem _

/-- `ApplyTxInUndo` finds nothing wrong and gives back the coins before the input was spent,
    just where it starts from those behind it and the version comes back. -/
theorem restore_input_iff (patched : Uint256 → Bool) (b' : Uint256) {view' : FlatView} {undo : CTxInUndo} (hm : ChainCoins m)
    (hX : TidyCoins X)
    (h : spendInput (⟨m, b⟩ : FlatView) txin = some (view', undo)) :
    ((applyTxInUndo undo.readBack (⟨X, b'⟩ : FlatView) txin.prevout).1 = true ∧
      Same patched (applyTxInUndo undo.readBack (⟨X, b'⟩ : FlatView) txin.prevout).2.coins m) ↔
    Same patched X view'.coins ∧ VersionKept patched m txin := by
  obtain ⟨c, hc, hout, rfl, rfl⟩ := spendInput_flat h
  have htidy := hm.tidy _ c hc
  have hone : (applyClean (undoOf c txin.prevout.n (entry .null c.vout txin.prevout.n)).readBack ((X txin.prevout.hash).getD .empty) txin.prevout.n = true ∧
      SameBut (patched txin.prevout.hash) (CCoins.modified
        (applyCoins (undoOf c txin.prevout.n (entry .null c.vout txin.prevout.n)).readBack txin.prevout.n)
        (X txin.prevout.hash)) (some c)) ↔
      SameBut (patched txin.prevout.hash) (X txin.prevout.hash) (CCoins.modified (·.spend txin.prevout.n) (some c)) ∧
        VersionKept patched m txin := by
    rw [modified_spend htidy hout]
    by_cases hlast : (c.spend txin.prevout.n).vout = []
    · rw [if_pos hlast, apply_last_iff htidy (hm.height _ c hc) hout hlast (hX _)]
      apply and_congr_right
      intro _
      exact ⟨fun hkept c' hc' _ => by cases hc.symm.trans hc'; exact hkept, fun hkept => hkept c hc hlast⟩
    · rw [if_neg hlast, apply_more_iff htidy hout hlast (hX _)]
      exact ⟨fun hsame => ⟨hsame, fun c' hc' hlast' => by cases hc.symm.trans hc'; exact absurd hlast' hlast⟩, And.left⟩
  generalize (undoOf c txin.prevout.n (entry .null c.vout txin.prevout.n)).readBack = undo at hone
  change (applyClean undo ((X txin.prevout.hash).getD .empty) txin.prevout.n = true ∧
    Same patched (Function.update X txin.prevout.hash (CCoins.modified (applyCoins undo txin.prevout.n) (X txin.prevout.hash))) m) ↔
      Same patched X (Function.update m txin.prevout.hash (CCoins.modified (·.spend txin.prevout.n) (m txin.prevout.hash))) ∧ _
  rw [same_update_left, same_update_right, hc, ← and_assoc, hone]
  exact and_right_comm

def InputsKept (patched : Uint256 → Bool) : (Uint256 → Option CCoins) → List CTxIn → Prop
  | _, [] => True
  | m, txin :: vin => VersionKept patched m txin ∧
    InputsKept patched (flatModify m txin.prevout.hash (·.spend txin.prevout.n)) vin

theorem spendInputs_cons {V : Type} [CoinsView V] {view view' : V} {vin : List CTxIn} {us : CTxUndo}
    (h : spendInputs view (txin :: vin) = some (view', us)) :
    ∃ view₁ undo us', spendInput view txin = some (view₁, undo) ∧ spendInputs view₁ vin = some (view', us') ∧
      us = undo :: us' := by
  unfold spendInputs at h
  obtain ⟨⟨view₁, undo⟩, hinput, h⟩ := Option.bind_eq_some_iff.1 h
  obtain ⟨⟨view₂, us'⟩, hrest, h⟩ := Option.bind_eq_some_iff.1 h
  cases h
  exact ⟨view₁, undo, us', hinput, hrest, rfl⟩

def flatSpend (m : Uint256 → Option CCoins) (vin : List CTxIn) : Uint256 → Option CCoins :=
  vin.foldl (fun m txin => flatModify m txin.prevout.hash (·.spend txin.prevout.n)) m

def CanPutBack (undo : CTxInUndo) : Prop := undo.txout.isNull = false ∧ isUnspendable undo.txout.scriptPubKey = false

theorem spendInputs_flat {vin : List CTxIn} {view' : FlatView} {us : CTxUndo} (hm : ChainCoins m)
    (h : spendInputs (⟨m, b⟩ : FlatView) vin = some (view', us)) :
    ChainCoins view'.coins ∧ view' = ⟨flatSpend m vin, b⟩ ∧ us.length = vin.length ∧
      ∀ undo ∈ us.map CTxInUndo.readBack, CanPutBack undo := by
  induction vin generalizing m us with
  | nil =>
    cases h
    exact ⟨hm, rfl, rfl, fun undo hundo => by simp at hundo⟩
  | cons txin vin ih =>
    obtain ⟨view₁, undo, us', hinput, hrest, rfl⟩ := spendInputs_cons h
    obtain ⟨c, hc, hout, rfl, rfl⟩ := spendInput_flat hinput
    obtain ⟨hcoins, hview, hlength, hundo⟩ := ih (tidy_flatModify_spend hm hc hout) hrest
    refine ⟨hcoins, hview, by simp [hlength], ?_⟩
    rw [List.map_cons, List.forall_mem_cons]
    exact ⟨txout_readBack (hm.tidy _ c hc) hout, hundo⟩

section Restore

variable {flags : IndexFlags} {pos : TxPos} {j : Nat}

theorem restoreInputs_cons {V : Type} [CoinsView V] {undo : CTxInUndo} {rest : List (CTxIn × CTxInUndo)} {view view' : V}
    {fClean : Bool} :
    (∃ us, restoreInputs flags pos j ((txin, undo) :: rest) view = some (fClean, view', us)) ↔
      ∃ f₁ view₁ us, restoreInputs flags pos (j + 1) rest view = some (f₁, view₁, us) ∧
        fClean = (f₁ && (applyTxInUndo undo view₁ txin.prevout).1) ∧ view' = (applyTxInUndo undo view₁ txin.prevout).2 ∧
        (flags.fAddressIndex = true → (getOutputFor view' txin).isSome = true) := by
  constructor
  · rintro ⟨us, h⟩
    unfold restoreInputs at h
    obtain ⟨⟨f₁, view₁, us₁⟩, hrest, h⟩ := Option.bind_eq_some_iff.1 h
    refine ⟨f₁, view₁, us₁, hrest, ?_⟩
    dsimp only at h
    split at h
    · obtain ⟨prevout, hout, h⟩ := Option.bind_eq_some_iff.1 h
      cases h
      exact ⟨rfl, rfl, fun _ => by rw [hout]; rfl⟩
    · next hindex =>
      cases h
      exact ⟨rfl, rfl, fun hon => absurd hon hindex⟩
  · rintro ⟨f₁, view₁, us, hrest, rfl, rfl, hout⟩
    unfold restoreInputs
    rw [hrest, Option.bind_eq_bind, Option.bind_some]
    dsimp only
    split
    · next hindex =>
      obtain ⟨prevout, hprevout⟩ := Option.isSome_iff_exists.1 (hout hindex)
      rw [hprevout]
      exact ⟨_, rfl⟩
    · exact ⟨_, rfl⟩

theorem restoreInputs_tidy {fClean : Bool} {rest : List (CTxIn × CTxInUndo)} {view' : FlatView} {us : List IndexUpdates}
    (hX : TidyCoins X)
    (hundo : ∀ it ∈ rest, CanPutBack it.2)
    (h : restoreInputs flags pos j rest (⟨X, b⟩ : FlatView) = some (fClean, view', us)) :
    TidyCoins view'.coins ∧ view'.hashBlock = b := by
  induction rest generalizing j fClean view' us with
  | nil =>
    cases h
    exact ⟨hX, rfl⟩
  | cons it rest ih =>
    obtain ⟨txin, undo⟩ := it
    rw [List.forall_mem_cons] at hundo
    obtain ⟨f₁, ⟨X₁, b₁⟩, us₁, hrest, -, rfl, -⟩ := restoreInputs_cons.1 ⟨us, h⟩
    obtain ⟨htidy, hblock⟩ := ih hundo.2 hrest
    exact ⟨tidy_flatModify_apply htidy hundo.1.1 hundo.1.2, hblock⟩

theorem getOutputFor_isSome {Y : Uint256 → Option CCoins} {c : CCoins} (hc : m txin.prevout.hash = some c)
    (hout : c.isAvailable txin.prevout.n = true)
    (hsame : Same patched Y m) : (getOutputFor (⟨Y, b⟩ : FlatView) txin).isSome = true := by
  have hat := hsame txin.prevout.hash
  rw [hc] at hat
  obtain ⟨c', hc', -, hvout, -⟩ := hat.some_right
  have hout' : c'.isAvailable txin.prevout.n = true := by
    rw [isAvailable_iff, hvout]
    exact isAvailable_iff.1 hout
  have hlt : txin.prevout.n < c'.vout.length := lt_of_isAvailable hout'
  simp [getOutputFor, getCoins, hc', hout', hlt]

/-- The loop over the inputs. The induction is on the inputs: those behind the first are
    restored before it, to the coins that were there once it was spent. -/
theorem restoreInputs_iff (patched : Uint256 → Bool) (b' : Uint256) (flags : IndexFlags) (pos : TxPos) (j : Nat)
    {vin : List CTxIn} {view' : FlatView} {us : CTxUndo}
    (hm : ChainCoins m) (hX : TidyCoins X)
    (h : spendInputs (⟨m, b⟩ : FlatView) vin = some (view', us)) :
    (∃ Y, (∃ upd, restoreInputs flags pos j (vin.zip (us.map CTxInUndo.readBack)) (⟨X, b'⟩ : FlatView) = some (true, Y, upd)) ∧ Same patched Y.coins m) ↔
      Same patched X view'.coins ∧ InputsKept patched m vin := by
  induction vin generalizing m us j with
  | nil =>
    cases h
    simp [restoreInputs, InputsKept]
  | cons txin vin ih =>
    obtain ⟨view₁, undo, us', hinput, hrest, rfl⟩ := spendInputs_cons h
    have hflat := spendInput_flat hinput
    obtain ⟨c, hc, hout, rfl, -⟩ := hflat
    have hm₁ := tidy_flatModify_spend hm hc hout
    obtain ⟨-, -, -, hundo⟩ := spendInputs_flat hm₁ hrest
    have hzip : ∀ it ∈ vin.zip (us'.map CTxInUndo.readBack), CanPutBack it.2 :=
      fun it hit => hundo it.2 (List.of_mem_zip hit).2
    have hone (X₁ : Uint256 → Option CCoins) (hX₁ : TidyCoins X₁) := restore_input_iff patched b' hm hX₁ hinput
    rw [List.map_cons, List.zip_cons_cons, InputsKept, ← and_assoc, and_right_comm, ← ih hm₁ hrest (j := j + 1)]
    constructor
    · rintro ⟨Y, hY, hsame⟩
      obtain ⟨f₁, ⟨X₁, b₁⟩, upd, hlater, hclean, rfl, -⟩ := restoreInputs_cons.1 hY
      obtain ⟨hX₁, hb₁⟩ := restoreInputs_tidy hX hzip hlater
      cases hb₁
      obtain ⟨rfl, hfirst⟩ := Bool.and_eq_true_iff.1 hclean.symm
      obtain ⟨hsame₁, hversion⟩ := (hone X₁ hX₁).1 ⟨hfirst, hsame⟩
      exact ⟨⟨_, ⟨upd, hlater⟩, hsame₁⟩, hversion⟩
    · rintro ⟨⟨⟨X₁, b₁⟩, ⟨upd, hlater⟩, hsame₁⟩, hversion⟩
      obtain ⟨hX₁, hb₁⟩ := restoreInputs_tidy hX hzip hlater
      cases hb₁
      obtain ⟨hfirst, hsame⟩ := (hone X₁ hX₁).2 ⟨hsame₁, hversion⟩
      refine ⟨_, restoreInputs_cons.2 ⟨true, _, upd, hlater, by rw [hfirst]; rfl, rfl, fun _ => ?_⟩, hsame⟩
      exact getOutputFor_isSome hc hout hsame

end Restore

end Inputs

end Zumy.Blocks
