/-
  Zumy.Wallet.Groupings — which addresses were made public as one owner's (`wallet/wallet.cpp`:
  `GetAddressGroupings`, `IsChange`).

  Where `new` puts a set, among the live ones, and in which order a `std::set` lists its sets
  are parameters. To use a set that was deleted is `none`.

  - `groupings_partition`: the groups part the wallet's own addresses by the transactions that
    spend from them or return change to them together.
-/
import Zumy.Lib.Merging
import Zumy.Wallet.Tally
import Mathlib.Order.Lattice.Nat

namespace Zumy.Ledger

open Zumy.Lib

section
variable (cfg : Config) (mapWallet : Map Uint256 CWalletTx) (mapAddressBook : Finset Nat)

def isChange (txout : CTxOut) : Bool :=
  cfg.isMine txout && match cfg.extractDestination txout.scriptPubKey with
    | none => true
    | some address => !decide (address ∈ mapAddressBook)

def inputAddress (txin : CTxIn) : Option Nat :=
  if isMineInput mapWallet cfg.isMine txin.prevout then
    ((mapWallet[txin.prevout.hash]?).bind fun prev => prev.vout[txin.prevout.n]?).bind fun out =>
      cfg.extractDestination out.scriptPubKey
  else none

def inputAddresses (pcoin : CWalletTx) : List Nat := pcoin.vin.filterMap (inputAddress cfg mapWallet)

def changeAddresses (pcoin : CWalletTx) : List Nat :=
  (pcoin.vout.filter (isChange cfg mapAddressBook)).filterMap fun txout => cfg.extractDestination txout.scriptPubKey

def outputAddresses (pcoin : CWalletTx) : List Nat :=
  (pcoin.vout.filter cfg.isMine).filterMap fun txout => cfg.extractDestination txout.scriptPubKey

def txGroupings (pcoin : CWalletTx) : List (Finset Nat) :=
  let inputs := inputAddresses cfg mapWallet pcoin
  -- group all input addresses with each other, and change with input addresses
  (if inputs.isEmpty then [] else [(inputs ++ changeAddresses cfg mapAddressBook pcoin).toFinset]) ++
    -- group lone addrs by themselves
    (outputAddresses cfg pcoin).map fun address => {address}

def walletTxs : List CWalletTx := mapWallet.toList.map Prod.snd

def addressGroupings : Finset (Finset Nat) :=
  ((walletTxs mapWallet).flatMap (txGroupings cfg mapWallet mapAddressBook)).toFinset

def getAddressGroupings (alloc : Finset Nat → Nat) (order : Finset (Finset Nat) → List (Finset Nat)) :
    Option (Finset (Finset Nat)) :=
  Merging.mergeAll alloc (order (addressGroupings cfg mapWallet mapAddressBook))

def OwnAddress (a : Nat) : Prop :=
  ∃ pcoin ∈ walletTxs mapWallet, a ∈ outputAddresses cfg pcoin ∨ a ∈ inputAddresses cfg mapWallet pcoin

def Joins (a b : Nat) : Prop :=
  ∃ pcoin ∈ walletTxs mapWallet, a ∈ inputAddresses cfg mapWallet pcoin ∧
    (b ∈ inputAddresses cfg mapWallet pcoin ∨ b ∈ changeAddresses cfg mapAddressBook pcoin)

end

variable {cfg : Config} {mapWallet : Map Uint256 CWalletTx} {mapAddressBook : Finset Nat} {pcoin : CWalletTx}
  {g : Finset Nat} {a b : Nat}

theorem change_is_output (h : a ∈ changeAddresses cfg mapAddressBook pcoin) : a ∈ outputAddresses cfg pcoin := by
  obtain ⟨txout, htxout, ha⟩ := List.mem_filterMap.1 h
  obtain ⟨hmem, hchange⟩ := List.mem_filter.1 htxout
  exact List.mem_filterMap.2 ⟨txout, List.mem_filter.2 ⟨hmem, (Bool.and_eq_true_iff.1 hchange).1⟩, ha⟩

/-- A group is of one own output's address, or of all own input addresses with the change. -/
theorem mem_txGroupings : g ∈ txGroupings cfg mapWallet mapAddressBook pcoin ↔
    (∃ c ∈ inputAddresses cfg mapWallet pcoin,
      g = (inputAddresses cfg mapWallet pcoin ++ changeAddresses cfg mapAddressBook pcoin).toFinset) ∨
    ∃ c ∈ outputAddresses cfg pcoin, g = {c} := by
  unfold txGroupings
  rw [List.mem_append, List.mem_map]
  refine or_congr ?_ (exists_congr fun c => and_congr_right fun _ => eq_comm)
  cases inputAddresses cfg mapWallet pcoin with
  | nil => simp
  | cons c cs => simp

theorem mem_addressGroupings : g ∈ addressGroupings cfg mapWallet mapAddressBook ↔
    ∃ pcoin ∈ walletTxs mapWallet, g ∈ txGroupings cfg mapWallet mapAddressBook pcoin := by
  rw [addressGroupings, List.mem_toFinset, List.mem_flatMap]

theorem nonempty_of_mem (h : g ∈ addressGroupings cfg mapWallet mapAddressBook) : g.Nonempty := by
  obtain ⟨pcoin, -, hg⟩ := mem_addressGroupings.1 h
  obtain ⟨c, hc, rfl⟩ | ⟨c, -, rfl⟩ := mem_txGroupings.1 hg
  · exact ⟨c, List.mem_toFinset.2 (List.mem_append_left _ hc)⟩
  · exact Finset.singleton_nonempty c

theorem grouped_iff : (∃ g ∈ addressGroupings cfg mapWallet mapAddressBook, a ∈ g) ↔ OwnAddress cfg mapWallet a := by
  constructor
  · intro hex
    obtain ⟨g, hg, ha⟩ := hex
    obtain ⟨pcoin, hpcoin, hg⟩ := mem_addressGroupings.1 hg
    obtain ⟨c, -, rfl⟩ | ⟨c, hc, rfl⟩ := mem_txGroupings.1 hg
    · obtain hin | hchange := List.mem_append.1 (List.mem_toFinset.1 ha)
      · exact ⟨pcoin, hpcoin, .inr hin⟩
      · exact ⟨pcoin, hpcoin, .inl (change_is_output hchange)⟩
    · rw [Finset.mem_singleton.1 ha]
      exact ⟨pcoin, hpcoin, .inl hc⟩
  · intro hown
    obtain ⟨pcoin, hpcoin, hout | hin⟩ := hown
    · exact ⟨{a}, mem_addressGroupings.2 ⟨pcoin, hpcoin, mem_txGroupings.2 (.inr ⟨a, hout, rfl⟩)⟩, Finset.mem_singleton_self a⟩
    · exact ⟨_, mem_addressGroupings.2 ⟨pcoin, hpcoin, mem_txGroupings.2 (.inl ⟨a, hin, rfl⟩)⟩,
        List.mem_toFinset.2 (List.mem_append_left _ hin)⟩

/-- A step within a group is a chain of joins, through one of the transaction's own input addresses. -/
theorem linked_iff {gs : List (Finset Nat)} (hgs : ∀ g, g ∈ gs ↔ g ∈ addressGroupings cfg mapWallet mapAddressBook) :
    Merging.Linked gs a b ↔ Relation.EqvGen (Joins cfg mapWallet mapAddressBook) a b := by
  constructor
  · intro h
    induction h with
    | rel a b hab =>
      obtain ⟨g, hg, ha, hb⟩ := hab
      obtain ⟨pcoin, hpcoin, hg⟩ := mem_addressGroupings.1 ((hgs g).1 hg)
      obtain ⟨c, hc, rfl⟩ | ⟨c, -, rfl⟩ := mem_txGroupings.1 hg
      · have hca := Relation.EqvGen.rel _ _
          (show Joins cfg mapWallet mapAddressBook c a from
            ⟨pcoin, hpcoin, hc, List.mem_append.1 (List.mem_toFinset.1 ha)⟩)
        have hcb := Relation.EqvGen.rel _ _
          (show Joins cfg mapWallet mapAddressBook c b from
            ⟨pcoin, hpcoin, hc, List.mem_append.1 (List.mem_toFinset.1 hb)⟩)
        exact (hca.symm _ _).trans _ _ _ hcb
      · rw [Finset.mem_singleton.1 ha, Finset.mem_singleton.1 hb]
        exact .refl c
    | refl a => exact .refl a
    | symm a b _ ih => exact ih.symm _ _
    | trans a b c _ _ ihab ihbc => exact ihab.trans _ _ _ ihbc
  · intro h
    refine Relation.EqvGen.mono ?_ a b h
    intro a b hab
    obtain ⟨pcoin, hpcoin, ha, hb⟩ := hab
    exact ⟨_, (hgs _).2 (mem_addressGroupings.2 ⟨pcoin, hpcoin, mem_txGroupings.2 (.inl ⟨a, ha, rfl⟩)⟩),
      List.mem_toFinset.2 (List.mem_append_left _ ha), List.mem_toFinset.2 (List.mem_append.2 hb)⟩

theorem groupings_partition (cfg : Config) (mapWallet : Map Uint256 CWalletTx) (mapAddressBook : Finset Nat)
    {alloc : Finset Nat → Nat} {order : Finset (Finset Nat) → List (Finset Nat)}
    (halloc : ∀ live, alloc live ∉ live) (horder : ∀ s g, g ∈ order s ↔ g ∈ s) :
    ∃ ret, getAddressGroupings cfg mapWallet mapAddressBook alloc order = some ret ∧
      ∅ ∉ ret ∧ (∀ s ∈ ret, ∀ t ∈ ret, s ≠ t → Disjoint s t) ∧
      (∀ a, (∃ s ∈ ret, a ∈ s) ↔ OwnAddress cfg mapWallet a) ∧
      ∀ a b, (∃ s ∈ ret, a ∈ s ∧ b ∈ s) ↔
        OwnAddress cfg mapWallet a ∧ Relation.EqvGen (Joins cfg mapWallet mapAddressBook) a b := by
  have hgs := horder (addressGroupings cfg mapWallet mapAddressBook)
  obtain ⟨ret, hret, hempty, hdisjoint, hcover, hsame⟩ :=
    Merging.mergeAll_spec halloc fun g hg => nonempty_of_mem ((hgs g).1 hg)
  have hown (a : Nat) : (∃ g ∈ order (addressGroupings cfg mapWallet mapAddressBook), a ∈ g) ↔ OwnAddress cfg mapWallet a :=
    (exists_congr fun g => and_congr_left fun _ => hgs g).trans grouped_iff
  refine ⟨ret, hret, hempty, hdisjoint, fun a => (hcover a).trans (hown a), fun a b => ?_⟩
  rw [hsame a b, hown a, linked_iff hgs]

def twoAddresses : Config where
  extractDestination script := some script.length
  isSpendable _ := true
  isMine out := decide (out.scriptPubKey.length < 3)
  fMasterNode := false
  nPrivateSendRounds := 2
  sortByAmount := id

def spentTogether : Map Uint256 CWalletTx :=
  ((∅ : Map Uint256 CWalletTx).insert 7 ⟨⟨[], [⟨coin, []⟩, ⟨coin, [0]⟩], 7⟩, 0, -1⟩).insert 8
    ⟨⟨[⟨⟨7, 0⟩, [], 0⟩, ⟨⟨7, 1⟩, [], 0⟩], [⟨coin, [0, 0, 0]⟩, ⟨coin, [0, 0]⟩], 8⟩, 0, -1⟩

theorem groupings_partition_sample : (∀ live : Finset Nat, live.sup id + 1 ∉ live) ∧
    ∃ ret, getAddressGroupings twoAddresses spentTogether {0, 1} (fun live => live.sup id + 1) Finset.toList = some ret ∧
      (∃ s ∈ ret, 0 ∈ s ∧ 2 ∈ s) ∧ ∀ s ∈ ret, 3 ∉ s := by
  have hfresh (live : Finset Nat) : live.sup id + 1 ∉ live := fun hin =>
    absurd (Finset.le_sup (f := id) hin) (Nat.not_succ_le_self _)
  refine ⟨hfresh, ?_⟩
  obtain ⟨ret, hret, -, -, hcover, hsame⟩ :=
    groupings_partition twoAddresses spentTogether {0, 1} hfresh fun s g => Finset.mem_toList
  refine ⟨ret, hret, (hsame 0 2).2 ⟨?_, .rel _ _ ?_⟩, fun s hs h3 => ?_⟩
  · show OwnAddress twoAddresses spentTogether 0
    unfold OwnAddress
    decide
  · show Joins twoAddresses spentTogether {0, 1} 0 2
    unfold Joins
    decide
  · have hown : OwnAddress twoAddresses spentTogether 3 := (hcover 3).1 ⟨s, hs, h3⟩
    unfold OwnAddress at hown
    revert hown
    decide

/-- The result does not depend on the order in which the groups are listed, nor on where `new` puts them. -/
theorem groupings_order_irrelevant (cfg : Config) (mapWallet : Map Uint256 CWalletTx) (mapAddressBook : Finset Nat)
    {alloc alloc' : Finset Nat → Nat} {order order' : Finset (Finset Nat) → List (Finset Nat)}
    (halloc : ∀ live, alloc live ∉ live) (halloc' : ∀ live, alloc' live ∉ live) (horder : ∀ s g, g ∈ order s ↔ g ∈ s)
    (horder' : ∀ s g, g ∈ order' s ↔ g ∈ s) :
    getAddressGroupings cfg mapWallet mapAddressBook alloc order = getAddressGroupings cfg mapWallet mapAddressBook alloc' order' :=
  Merging.mergeAll_congr halloc halloc' (fun _ hg => nonempty_of_mem ((horder _ _).1 hg))
    fun g => (horder _ g).trans (horder' _ g).symm

theorem groupings_order_irrelevant_sample :
    getAddressGroupings twoAddresses spentTogether {0, 1} (fun live => live.sup id + 1) Finset.toList =
      getAddressGroupings twoAddresses spentTogether {0, 1} (fun live => live.sup id + 2) fun s => s.toList.reverse :=
  groupings_order_irrelevant _ _ _ (fun _ hin => absurd (Finset.le_sup (f := id) hin) (Nat.not_succ_le_self _))
    (fun _ hin => Nat.not_succ_le_self _ ((Nat.le_succ _).trans (Finset.le_sup (f := id) hin))) (fun _ _ => Finset.mem_toList)
    fun _ _ => List.mem_reverse.trans Finset.mem_toList

end Zumy.Ledger
