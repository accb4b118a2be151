/-
  Zumy.Wallet.MasternodeCoins — which coin selections leave a masternode's collateral alone
  (`wallet/wallet.cpp`: `AvailableCoins`, `SelectCoinsMix`, `SelectCoinsGrouppedByAddresses`).

  `ONLY_500` finds the outputs of 2000 coins, and the two modes that leave them out name the
  same amount. The tally leaves out outputs of 500 coins, so it counts the collateral unless
  it is locked.
-/
import Zumy.Wallet.Coins

namespace Zumy.Ledger

open Zumy.Lib

namespace MixingWallet

/-- An output that `ONLY_500` selects by its value. -/
def IsCollateral (s : MixingWallet) (o : COutPoint) : Prop :=
  ∃ (wtx : CWalletTx) (out : CTxOut), s.mapWallet[o.hash]? = some wtx ∧ wtx.vout[o.n]? = some out ∧ out.nValue = 2000 * coin

structure CollateralSafe (cfg : CoinConfig) (s : MixingWallet) : Prop where
  available : ∀ q : CoinQuery, q.nCoinType = .onlyNot500IfMN ∨ q.nCoinType = .onlyNondenominatedNot500IfMN →
    ∀ out ∈ s.availableCoins cfg q, out.nValue ≠ 2000 * coin
  mix : ∀ rounds nValueMin nValueMax nRoundsMin nRoundsMax,
    ∀ out ∈ (s.selectCoinsMix cfg rounds nValueMin nValueMax nRoundsMin nRoundsMax).2.1, out.nValue ≠ 2000 * coin
  groupped : ∀ fSkipDenominated vecTallyRet s',
    s.selectCoinsGrouppedByAddresses cfg.toConfig fSkipDenominated = some (vecTallyRet, s') →
    ∀ item ∈ vecTallyRet, ∀ o ∈ item.vecTxIn, ¬ s.IsCollateral o

/-- What is cached has no collateral, or none is counted but for its rounds; those of an output that is not denominated
    are -2 unless the table says otherwise. -/
def CollateralOut (cfg : CoinConfig) (s : MixingWallet) (fSkipDenominated : Bool) : Prop :=
  if s.flag fSkipDenominated then ∀ item ∈ s.cached fSkipDenominated, ∀ o ∈ item.vecTxIn, ¬ s.IsCollateral o
  else ∀ c ∈ s.coins cfg.toConfig fSkipDenominated, c.nValue = 2000 * coin →
    cfg.nPrivateSendRounds ≤ (values s.mDenomWtxes c.prevout).getD (-2)

variable {cfg : CoinConfig} {s : MixingWallet} {fSkipDenominated : Bool} {M : DenomTable} {mapTally : Map Nat CompactTallyItem}

/-! ## The modes of AvailableCoins -/

theorem available_ne (hmn : cfg.fMasterNode = true) {q : CoinQuery}
    (hq : q.nCoinType ≠ .allCoins ∧ q.nCoinType ≠ .only500) {out : COutput} (h : out ∈ s.availableCoins cfg q) :
    out.nValue ≠ 2000 * coin := by
  obtain ⟨k, txout, -, -, -, hfound, -⟩ := mem_availableCoins h
  have hplain : isDenominatedAmount (2000 * coin) = false := by decide
  have hcollateral : isCollateralAmount (2000 * coin) = false := by decide
  intro hvalue
  rw [hvalue] at hfound
  cases htype : q.nCoinType with
  | allCoins => exact hq.1 htype
  | only500 => exact hq.2 htype
  | onlyDenominated =>
    rw [htype] at hfound
    exact Bool.false_ne_true (hplain.symm.trans hfound)
  | onlyNot500IfMN =>
    rw [htype] at hfound
    simp [found, hmn] at hfound
  | onlyNondenominatedNot500IfMN =>
    rw [htype] at hfound
    simp [found, hmn, hplain] at hfound
  | onlyPrivatesendCollateral =>
    rw [htype] at hfound
    exact Bool.false_ne_true (hcollateral.symm.trans hfound)

variable {rounds : COutPoint → Int} {nValueMin nValueMax nRoundsMin nRoundsMax : Int}

theorem mem_foldl_mixCoin (vCoins : List COutput) (ret : List COutput × CAmount) {out : COutput}
    (h : out ∈ (vCoins.foldl (mixCoin cfg rounds nValueMin nValueMax nRoundsMin nRoundsMax) ret).1) : out ∈ ret.1 ∨ out ∈ vCoins := by
  induction vCoins generalizing ret with
  | nil => exact .inl h
  | cons c vCoins ih =>
    obtain hret | hrest := ih _ h
    · have hone : out ∈ ret.1 ∨ out = c := by
        unfold mixCoin at hret
        split_ifs at hret <;> simp_all
      exact hone.imp id fun (heq : out = c) => heq ▸ List.mem_cons_self
    · exact .inr (List.mem_cons_of_mem _ hrest)

theorem mix_ne (hmn : cfg.fMasterNode = true) (hprio : ∀ l, (cfg.sortByPriority l).Perm l) {out : COutput}
    (h : out ∈ (s.selectCoinsMix cfg rounds nValueMin nValueMax nRoundsMin nRoundsMax).2.1) : out.nValue ≠ 2000 * coin := by
  obtain hnil | hmem := mem_foldl_mixCoin _ _ h
  · cases hnil
  · refine available_ne hmn ?_ ((hprio _).mem_iff.1 hmem)
    dsimp only
    split <;> decide

/-! ## The tally -/

def Plain (s : MixingWallet) (o : COutPoint) : Prop := ∀ ns, roundsOf s.mapWallet o ns = -2

theorem plain_of_isCollateral {o : COutPoint} (h : s.IsCollateral o) : s.Plain o := by
  obtain ⟨wtx, out, hwtx, hout, hvalue⟩ := h
  have hcollateral : isCollateralAmount (2000 * coin) = false := by decide
  have hplain : isDenominatedAmount (2000 * coin) = false := by decide
  intro ns
  simp [roundsOf, hwtx, hout, hvalue, hcollateral, hplain]

theorem tallyCoin_spec {c : Coin} (hM : TableOk s.mapWallet M) (hc : InWallet s.mapWallet c.prevout)
    (mapTally : Map Nat CompactTallyItem) :
    ∃ n M', s.tallyCoin cfg.toConfig (mapTally, M) c =
        some (if cfg.nPrivateSendRounds ≤ n then mapTally else addToTally mapTally c.address c.nValue c.prevout, M') ∧
      TableOk s.mapWallet M' ∧ (s.Plain c.prevout → n = (values M c.prevout).getD (-2)) ∧
      ∀ o, s.Plain o → (values M' o).getD (-2) = (values M o).getD (-2) := by
  obtain ⟨M', hrun, hafter⟩ := getReal_eval s.mapWallet cfg.isMine 16 M c.prevout hM hc
  have hkept (o : COutPoint) (ho : s.Plain o) : (values M' o).getD (-2) = (values M o).getD (-2) := by
    rw [hafter.values]
    exact eval_getD ho
  refine ⟨(eval (ownInputs s.mapWallet cfg.isMine) (roundsOf s.mapWallet) 15 16 (values M) c.prevout).1, M', ?_, hafter.ok,
    fun ho => ?_, hkept⟩
  · rw [tallyCoin_of_real hrun]
    split_ifs <;> first | rfl | omega
  · rw [← hkept _ ho, hafter.values, eval_settles, Option.getD_some]

def Listed (mapTally : Map Nat CompactTallyItem) (address : Nat) (o : COutPoint) (n : CAmount) : Prop :=
  ∃ item, mapTally[address]? = some item ∧ o ∈ item.vecTxIn ∧ n ≤ item.nAmount

theorem listed_addToTally {address a : Nat} {nValue n : CAmount} {o p : COutPoint} (hvalue : 0 ≤ nValue)
    (h : Listed mapTally a o n) : Listed (addToTally mapTally address nValue p) a o n := by
  obtain ⟨item, hitem, ho, hn⟩ := h
  by_cases ha : a = address
  · subst ha
    refine ⟨_, by rw [addToTally, lookup_insert, if_pos rfl], ?_, ?_⟩
    · simp [hitem, ho]
    · rw [hitem, Option.getD_some]
      exact le_add_of_le_of_nonneg hn hvalue
  · exact ⟨item, by rw [addToTally, lookup_insert, if_neg ha, hitem], ho, hn⟩

/-- The induction is on the outputs: what was listed stays, and an output comes in just when it is short of its rounds. -/
theorem tally_run (cs : List Coin) (hcs : ∀ c ∈ cs, InWallet s.mapWallet c.prevout ∧ 0 ≤ c.nValue)
    (hM : TableOk s.mapWallet M) (hamount : ∀ (a : Nat) (item : CompactTallyItem), mapTally[a]? = some item → 0 ≤ item.nAmount) :
    ∃ mapTally' M', cs.foldlM (s.tallyCoin cfg.toConfig) (mapTally, M) = some (mapTally', M') ∧
      (∀ a o n, Listed mapTally a o n → Listed mapTally' a o n) ∧
      (∀ c ∈ cs, s.Plain c.prevout → (values M c.prevout).getD (-2) < cfg.nPrivateSendRounds →
        Listed mapTally' c.address c.prevout c.nValue) ∧
      ∀ (a : Nat) (item' : CompactTallyItem), mapTally'[a]? = some item' → ∀ o ∈ item'.vecTxIn, s.Plain o →
        (∃ item, mapTally[a]? = some item ∧ o ∈ item.vecTxIn) ∨
        ∃ c ∈ cs, c.prevout = o ∧ (values M o).getD (-2) < cfg.nPrivateSendRounds := by
  induction cs generalizing mapTally M with
  | nil => exact ⟨mapTally, M, rfl, fun _ _ _ h => h, fun c hc => absurd hc List.not_mem_nil, fun a item h o ho _ => .inl ⟨item, h, ho⟩⟩
  | cons c cs ih =>
    obtain ⟨⟨hc, hvalue⟩, hcs⟩ := List.forall_mem_cons.1 hcs
    obtain ⟨n, M₁, hstep, hM₁, hn, hkept⟩ := tallyCoin_spec hM hc mapTally
    rw [List.foldlM_cons, hstep]
    dsimp only [Option.bind_eq_bind, Option.bind_some]
    by_cases hrounds : cfg.nPrivateSendRounds ≤ n
    · rw [if_pos hrounds]
      obtain ⟨mapTally', M', hrun, hgrow, hin, hfrom⟩ := ih hcs hM₁ hamount
      refine ⟨mapTally', M', hrun, hgrow, ?_, fun a item' hitem' o ho hplain => ?_⟩
      · intro d hd hplain hlt
        obtain rfl | hd := List.mem_cons.1 hd
        · rw [← hn hplain] at hlt
          omega
        · exact hin d hd hplain (by rwa [hkept _ hplain])
      · obtain hold | ⟨d, hd, heq, hlt⟩ := hfrom a item' hitem' o ho hplain
        · exact .inl hold
        · exact .inr ⟨d, List.mem_cons_of_mem _ hd, heq, by rwa [← hkept _ hplain]⟩
    · rw [if_neg hrounds]
      have hamount' : ∀ (a : Nat) (item : CompactTallyItem),
          (addToTally mapTally c.address c.nValue c.prevout)[a]? = some item → 0 ≤ item.nAmount := by
        intro a item hitem
        rw [addToTally, lookup_insert] at hitem
        split at hitem
        · cases hitem
          cases hold : mapTally[c.address]? with
          | none => simpa using hvalue
          | some old =>
            rw [Option.getD_some]
            exact add_nonneg (hamount _ old hold) hvalue
        · exact hamount a item hitem
      obtain ⟨mapTally', M', hrun, hgrow, hin, hfrom⟩ := ih hcs hM₁ hamount'
      refine ⟨mapTally', M', hrun, fun a o n h => hgrow a o n (listed_addToTally hvalue h), ?_, fun a item' hitem' o ho hplain => ?_⟩
      · intro d hd hplain hlt
        obtain rfl | hd := List.mem_cons.1 hd
        · refine hgrow _ _ _ ⟨_, by rw [addToTally, lookup_insert, if_pos rfl], by simp, ?_⟩
          cases hold : mapTally[d.address]? with
          | none => simp
          | some old =>
            rw [Option.getD_some]
            exact le_add_of_nonneg_left (hamount _ old hold)
        · exact hin d hd hplain (by rwa [hkept _ hplain])
      · obtain ⟨item, hitem, hmem⟩ | ⟨d, hd, heq, hlt⟩ := hfrom a item' hitem' o ho hplain
        · rw [addToTally, lookup_insert] at hitem
          split at hitem
          · next ha =>
            cases hitem
            obtain hmem | hnew := List.mem_append.1 hmem
            · cases hold : mapTally[c.address]? with
              | none =>
                rw [hold] at hmem
                cases hmem
              | some old =>
                rw [hold] at hmem
                exact .inl ⟨old, ha ▸ hold, hmem⟩
            · obtain rfl := List.mem_singleton.1 hnew
              refine .inr ⟨c, List.mem_cons_self, rfl, ?_⟩
              rw [← hn hplain]
              omega
          · exact .inl ⟨item, hitem, hmem⟩
        · exact .inr ⟨d, List.mem_cons_of_mem _ hd, heq, by rwa [← hkept _ hplain]⟩

theorem coin_of_mem (hs : Filed s.mapWallet s.mDenomWtxes) {c : Coin} (hc : c ∈ s.coins cfg.toConfig fSkipDenominated) :
    0 ≤ c.nValue ∧ (s.IsCollateral c.prevout ↔ c.nValue = 2000 * coin) := by
  obtain ⟨e, he, hc⟩ := List.mem_flatMap.1 hc
  obtain ⟨⟨out, i⟩, ho, hcount⟩ := List.mem_filterMap.1 hc
  obtain ⟨address, hcounts, rfl⟩ := Option.map_eq_some_iff.1 hcount
  have hwtx := Std.TreeMap.mem_toList_iff_getElem?_eq_some.1 he
  have hhash := hs.hash e.1 e.2 hwtx
  have hout := List.mem_zipIdx_iff_getElem?.1 ho
  refine ⟨?_, fun h => ?_, fun h => ⟨e.2, out, by rw [hhash, hwtx], hout, h⟩⟩
  · rw [counts] at hcounts
    split at hcounts
    · cases hcounts
    · obtain ⟨a, -, hcounted⟩ := Option.bind_eq_some_iff.1 hcounts
      split_ifs at hcounted with h₁ h₂ h₃ h₄ h₅ h₆
      have hsmallest : (0 : Int) ≤ smallestDenomination / 10 := by decide
      exact hsmallest.trans (not_le.1 h₆).le
  · obtain ⟨wtx, out', hget, hout', hvalue⟩ := h
    rw [hhash, hwtx] at hget
    cases hget
    rw [hout] at hout'
    cases hout'
    exact hvalue

theorem groupped_iff (hs : Filed s.mapWallet s.mDenomWtxes) (hsort : ∀ l, (cfg.sortByAmount l).Perm l) :
    (∀ vecTallyRet s', s.selectCoinsGrouppedByAddresses cfg.toConfig fSkipDenominated = some (vecTallyRet, s') →
      ∀ item ∈ vecTallyRet, ∀ o ∈ item.vecTxIn, ¬ s.IsCollateral o) ↔ CollateralOut cfg s fSkipDenominated := by
  rw [CollateralOut, selectCoinsGrouppedByAddresses]
  split
  · constructor
    · intro h
      exact h _ _ rfl
    · intro h vecTallyRet s' hrun
      cases hrun
      exact h
  · have hstart : ∀ (a : Nat) (item : CompactTallyItem), (∅ : Map Nat CompactTallyItem)[a]? = some item → 0 ≤ item.nAmount := by
      simp
    obtain ⟨mapTally, M', hrun, -, hin, hfrom⟩ := @tally_run cfg s _ _ (s.coins cfg.toConfig fSkipDenominated)
      (fun c hc => ⟨inWallet_of_mem_coins hs hc, (coin_of_mem hs hc).1⟩) hs.table hstart
    rw [recompute_eq, hrun, Option.map_some, Option.map_some]
    have hvec (item : CompactTallyItem) : item ∈ vecTally cfg.toConfig mapTally ↔
        (∃ a : Nat, mapTally[a]? = some item) ∧ smallestDenomination ≤ item.nAmount := by
      rw [vecTally, (hsort _).mem_iff, List.mem_filter, List.mem_map]
      simp [Std.TreeMap.mem_toList_iff_getElem?_eq_some]
    constructor
    · intro h c hc hvalue
      by_contra hlt
      have hcollateral := (coin_of_mem hs hc).2.2 hvalue
      obtain ⟨item, hitem, ho, hn⟩ := hin c hc (plain_of_isCollateral hcollateral) (by omega)
      refine h _ _ rfl item ((hvec item).2 ⟨⟨_, hitem⟩, ?_⟩) _ ho hcollateral
      have hlow : smallestDenomination ≤ 2000 * coin := by decide
      exact hlow.trans (hvalue ▸ hn)
    · intro h vecTallyRet s' hret item hitem o ho hcollateral
      cases hret
      obtain ⟨⟨a, hget⟩, -⟩ := (hvec item).1 hitem
      obtain ⟨_, hempty, -⟩ | ⟨c, hc, rfl, hlt⟩ := hfrom a item hget o ho (plain_of_isCollateral hcollateral)
      · simp at hempty
      · have := h c hc ((coin_of_mem hs hc).2.1 hcollateral)
        omega

/-- A masternode's wallet. The two sorts give the list in another order. -/
theorem collateralSafe_iff (hmn : cfg.fMasterNode = true) (hs : Filed s.mapWallet s.mDenomWtxes)
    (hsort : ∀ l, (cfg.sortByAmount l).Perm l) (hprio : ∀ l, (cfg.sortByPriority l).Perm l) :
    CollateralSafe cfg s ↔ ∀ fSkipDenominated, CollateralOut cfg s fSkipDenominated := by
  constructor
  · intro h fSkipDenominated
    exact (groupped_iff hs hsort).1 (h.groupped fSkipDenominated)
  · intro h
    refine ⟨fun q hq out hout => ?_, fun _ _ _ _ _ out hout => mix_ne hmn hprio hout, fun f => (groupped_iff hs hsort).2 (h f)⟩
    refine available_ne hmn ?_ hout
    obtain hq | hq := hq <;> rw [hq] <;> decide

/-! ## A masternode with its collateral -/

def hotNode : CoinConfig := { ownNode with fMasterNode := true }

def oneCollateral : MixingWallet :=
  { onePayment with mapWallet := (∅ : Map Uint256 CWalletTx).insert 7 { payment with vout := [⟨2000 * coin, []⟩] } }

theorem filed_oneCollateral : Filed oneCollateral.mapWallet oneCollateral.mDenomWtxes where
  hash k wtx hget := by
    rw [oneCollateral, lookup_insert] at hget
    split at hget
    · next hk =>
      cases hget
      exact hk.symm
    · simp at hget
  table h vout hget := by
    have hempty : oneCollateral.mDenomWtxes = ∅ := rfl
    rw [hempty] at hget
    simp at hget

def lockedCollateral : MixingWallet := { oneCollateral with setLockedCoins := {⟨7, 0⟩} }

/-- A collateral that is locked. -/
theorem collateralSafe_sample : CollateralSafe hotNode lockedCollateral := by
  refine (@collateralSafe_iff hotNode lockedCollateral rfl filed_oneCollateral (fun l => .refl l) fun l => .refl l).2 fun fSkipDenominated => ?_
  have hnone : ∀ f, lockedCollateral.flag f = false ∧ lockedCollateral.coins hotNode.toConfig f = [] := by decide +kernel
  rw [CollateralOut, (hnone _).1, (hnone _).2, if_neg Bool.false_ne_true]
  exact fun c hc => absurd hc List.not_mem_nil

/-- One that is not locked is in the tally. -/
theorem collateral_tallied :
    hotNode.fMasterNode = true ∧ IsCollateral oneCollateral ⟨7, 0⟩ ∧
      (oneCollateral.selectCoinsGrouppedByAddresses hotNode.toConfig true).map Prod.fst = some [⟨0, 2000 * coin, [⟨7, 0⟩]⟩] :=
  ⟨rfl, ⟨_, _, rfl, rfl, rfl⟩, by decide +kernel⟩

end MixingWallet

end Zumy.Ledger
