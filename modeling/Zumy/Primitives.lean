/-
  Zumy.Primitives — hashes, outpoints, inputs, outputs, transactions and amounts
  (primitives/transaction.h, uint256.h, amount.h), with the maps the program keys by them.

  `Uint256` is a natural number: the program only compares and orders hashes, and a
  collision-free hash exists only into an unbounded type. `std::map` is `Std.TreeMap`:
  `find` is `m[k]?`, `insert(make_pair(k, v))` is `insertIfNew`, `m[k] = v` is `insert`,
  and iteration runs over `toList`, in key order.
-/
import Mathlib.Logic.Relation
import Mathlib.Algebra.Order.BigOperators.Group.List
import Mathlib.Algebra.Order.Ring.Int
import Mathlib.Algebra.Order.Ring.Nat
import Mathlib.Data.Finset.Card

namespace Zumy

abbrev Uint256 := Nat

/-- `UintToArith256`: the bytes a hash is ordered by are the number's, lowest first. -/
def uintToArith256 (h : Uint256) : Nat := (List.range 32).foldl (fun n i => n * 256 + h / 256 ^ i % 256) 0

abbrev CAmount := Int
abbrev CScript := List UInt8
abbrev CPubKey := List UInt8

/-- `std::map`, ordered by the key's `operator<`. -/
abbrev Map (K V : Type) [Ord K] := Std.TreeMap K V compare
abbrev HashSet := Std.TreeSet Uint256 compare

structure COutPoint where
  hash : Uint256
  n : Nat
  deriving DecidableEq, Repr, Inhabited

/-- `SetNull`: the outpoint a coinbase input spends. -/
def COutPoint.null : COutPoint := ⟨0, 2 ^ 32 - 1⟩

def COutPoint.isNull (o : COutPoint) : Bool := o == .null

/-- `operator<` of an outpoint: the hash first, then the index. -/
instance : Ord COutPoint := ⟨compareLex (compareOn COutPoint.hash) (compareOn COutPoint.n)⟩

instance : Std.TransOrd COutPoint :=
  inferInstanceAs (Std.TransCmp (compareLex (compareOn COutPoint.hash) (compareOn COutPoint.n)))

instance : Std.LawfulEqOrd COutPoint where
  eq_of_compare {a b} h := by
    have h' : (compare a.hash b.hash).then (compare a.n b.n) = .eq := h
    cases a; cases b
    simpa [Ordering.then_eq_eq] using h'

structure CTxIn where
  prevout : COutPoint
  scriptSig : CScript
  nSequence : Nat
  deriving DecidableEq, Repr, Inhabited

/-- `operator<` of an input compares the outpoints; `operator==` compares all three fields. -/
instance : Ord CTxIn := ⟨compareOn CTxIn.prevout⟩

instance : Std.TransOrd CTxIn := inferInstanceAs (Std.TransCmp (compareOn CTxIn.prevout))

def CTxIn.less (a b : CTxIn) : Bool := compare a b == .lt

theorem CTxIn.compare_eq_iff {a b : CTxIn} : compare a b = .eq ↔ a.prevout = b.prevout :=
  Std.LawfulEqOrd.compare_eq_iff_eq (a := a.prevout) (b := b.prevout)

@[ext] structure CTxOut where
  nValue : CAmount
  scriptPubKey : CScript
  deriving DecidableEq, Repr, Inhabited

/-- A transaction with its cached `hash`, the value `GetHash` returns. -/
structure CTransaction where
  vin : List CTxIn
  vout : List CTxOut
  hash : Uint256
  deriving DecidableEq, Repr, Inhabited

def CTransaction.isCoinBase (tx : CTransaction) : Bool :=
  match tx.vin with
  | [txin] => txin.prevout.isNull
  | _ => false

def coin : CAmount := 100000000

def maxMoney : CAmount := 1261440000000000

def moneyRange (nValue : CAmount) : Bool := 0 ≤ nValue && nValue ≤ maxMoney

/-- One turn of `GetValueOut`; `none` where it throws. -/
def addValue (nValueOut : CAmount) (out : CTxOut) : Option CAmount :=
  if moneyRange out.nValue && moneyRange (nValueOut + out.nValue) then some (nValueOut + out.nValue) else none

def getValueOut (vout : List CTxOut) : Option CAmount := vout.foldlM addValue 0

theorem moneyRange_iff {nValue : CAmount} : moneyRange nValue = true ↔ 0 ≤ nValue ∧ nValue ≤ maxMoney := by
  simp [moneyRange]

theorem addValue_range {a b : CAmount} {out : CTxOut} (h : addValue a out = some b) : moneyRange b = true := by
  unfold addValue at h
  split at h
  · next hin =>
    cases h
    exact (Bool.and_eq_true_iff.1 hin).2
  · cases h

theorem addValue_zero {a : CAmount} {out : CTxOut} (ha : moneyRange a = true) (hout : out.nValue = 0) :
    addValue a out = some a := by
  have hzero : moneyRange 0 = true := by decide
  simp [addValue, hout, hzero, ha]

theorem foldlM_addValue_range {vout : List CTxOut} {a v : CAmount} (ha : moneyRange a = true)
    (h : vout.foldlM addValue a = some v) : moneyRange v = true := by
  induction vout generalizing a with
  | nil =>
    cases h
    exact ha
  | cons out vout ih =>
    obtain ⟨b, hb, hrest⟩ := Option.bind_eq_some_iff.1 h
    exact ih (addValue_range hb) hrest

theorem getValueOut_range {vout : List CTxOut} {v : CAmount} (h : getValueOut vout = some v) : moneyRange v = true :=
  foldlM_addValue_range (by decide) h

theorem getValueOut_append_zero {vout vout' : List CTxOut} {v : CAmount} (h : getValueOut vout = some v)
    (h' : ∀ out ∈ vout', out.nValue = 0) : getValueOut (vout ++ vout') = some v := by
  have hv := getValueOut_range h
  unfold getValueOut at h ⊢
  rw [List.foldlM_append, h, Option.bind_eq_bind, Option.bind_some]
  clear h
  induction vout' with
  | nil => rfl
  | cons out vout' ih =>
    rw [List.foldlM_cons, addValue_zero hv (h' out List.mem_cons_self)]
    exact ih fun o ho => h' o (List.mem_cons_of_mem out ho)

/-- The induction is on the outputs: the sum so far is below the last one, so it is in range too. -/
theorem foldlM_addValue_eq_some_iff {vout : List CTxOut} {a v : CAmount} (ha : moneyRange a = true) :
    vout.foldlM addValue a = some v ↔ (∀ out ∈ vout, 0 ≤ out.nValue) ∧ a + (vout.map (·.nValue)).sum = v ∧ v ≤ maxMoney := by
  induction vout generalizing a with
  | nil =>
    simp only [List.foldlM_nil, List.not_mem_nil, false_imp_iff, implies_true, true_and, List.map_nil, List.sum_nil, Int.add_zero]
    constructor
    · intro h
      cases h
      exact ⟨rfl, (moneyRange_iff.1 ha).2⟩
    · intro hboth
      obtain ⟨rfl, -⟩ := hboth
      rfl
  | cons out vout ih =>
    rw [List.foldlM_cons, List.forall_mem_cons, List.map_cons, List.sum_cons, ← Int.add_assoc]
    by_cases hout : moneyRange out.nValue = true ∧ moneyRange (a + out.nValue) = true
    · have hadd : addValue a out = some (a + out.nValue) := by simp [addValue, hout]
      rw [hadd, Option.bind_eq_bind, Option.bind_some, ih hout.2, and_iff_right (moneyRange_iff.1 hout.1).1]
    · have hadd : addValue a out = none := by
        unfold addValue
        exact if_neg (by simpa using hout)
      rw [hadd]
      constructor
      · intro h
        cases h
      · intro hboth
        obtain ⟨⟨hnonneg, hrest⟩, hv, hmax⟩ := hboth
        have hsum : 0 ≤ (vout.map (·.nValue)).sum := by
          apply List.sum_nonneg
          intro x hx
          obtain ⟨o, ho, rfl⟩ := List.mem_map.1 hx
          exact hrest o ho
        have hlow : 0 ≤ a := (moneyRange_iff.1 ha).1
        generalize (vout.map (·.nValue)).sum = rest at hv hsum
        rw [moneyRange_iff, moneyRange_iff] at hout
        have hle : a + out.nValue ≤ maxMoney := (Int.le_add_of_nonneg_right hsum).trans (hv ▸ hmax)
        have hle' : out.nValue ≤ maxMoney := (Int.le_add_of_nonneg_left hlow).trans hle
        exact absurd ⟨⟨hnonneg, hle'⟩, Int.add_nonneg hlow hnonneg, hle⟩ hout

/-- `GetValueOut` throws unless no output is negative and their sum is in range. -/
theorem getValueOut_eq_some_iff {vout : List CTxOut} {v : CAmount} :
    getValueOut vout = some v ↔ (∀ out ∈ vout, 0 ≤ out.nValue) ∧ (vout.map (·.nValue)).sum = v ∧ v ≤ maxMoney := by
  rw [getValueOut, foldlM_addValue_eq_some_iff (by decide), Int.zero_add]

end Zumy
