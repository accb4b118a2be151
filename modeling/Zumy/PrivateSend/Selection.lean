/-
  Zumy.PrivateSend.Selection — what SelectCoinsByDenominations (wallet.cpp) finds.

  It goes through the denominated coins that AvailableCoins lists, in any order. A draw of
  `InsecureRand` is 32 bits, modulo the bound. Behind the last coin it asks that the total
  is large enough and that every denomination of the session was found; the return in the
  middle, which a draw decides, asks for the total only.
-/
import Zumy.PrivateSend.Prepare
import Zumy.Wallet.Coins

namespace Zumy.PrivateSend

open Lib

def insecureRand (draws : Nat → UInt32) (k : Nat) (nMax : Int) : Int := ((draws k).toNat : Int).tmod nMax

def denominatedCoins (cfg : Ledger.CoinConfig) (s : Ledger.MixingWallet) : List COutput :=
  (s.availableCoins cfg ⟨true, none, false, .onlyDenominated, false⟩).map fun out => ⟨out.prevout, out.nValue⟩

def AllFound (nDenom : Int) (coins : List COutput) : Prop :=
  ∀ i, hasBit nDenom i = true ↔ i < 4 ∧ ∃ out ∈ coins, out.nValue = denomination i

structure Selects (w : MixingWallet) (nDenom nValueMin nValueMax nRoundsMin nRoundsMax : Int) (sel : Selection) : Prop where
  distinct : (sel.coins.map (·.prevout)).Nodup
  bits : ∀ out ∈ sel.coins, ∃ nBit, hasBit nDenom nBit = true ∧ out.nValue = denomination nBit
  rounds : ∀ out ∈ sel.coins,
    nRoundsMin ≤ w.getInputPrivateSendRounds out.txin ∧ w.getInputPrivateSendRounds out.txin < nRoundsMax
  total : totalValue sel.coins = sel.nValueRet
  bounds : nValueMin ≤ sel.nValueRet ∧ sel.nValueRet ≤ nValueMax
  complete : AllFound nDenom sel.coins

section
variable (w : MixingWallet) (draws : Nat → UInt32) (nDenom nValueMin nRoundsMin nRoundsMax : Int) (vecBits : List Nat)

/-- A turn of the loop; `none` is the return in the middle. -/
def turn (sel : Selection) (out : COutput) : Option Selection :=
  (selectCoin w (insecureRand draws) nValueMin nRoundsMin nRoundsMax vecBits sel out).toOption

def TurnOk (sel : Selection) (out : COutput) : Prop :=
  turn w draws nValueMin nRoundsMin nRoundsMax vecBits sel out = none → AllFound nDenom sel.coins

end

variable {w : MixingWallet} {draws : Nat → UInt32} {nDenom nValueMin nValueMax nRoundsMin nRoundsMax : Int} {vecBits : List Nat}
  {out : COutput} {sel : Selection} {nBit : Nat}

/-! ## A turn -/

theorem insecureRand_nonneg (draws : Nat → UInt32) (k : Nat) (nMax : Int) : 0 ≤ insecureRand draws k nMax := Int.tmod_nonneg _ (Int.natCast_nonneg _)

theorem selectBits_hit {rand : Nat → Int → Int} {nCoins : Nat} (hbits : SessionBits vecBits) (hmem : nBit ∈ vecBits)
    (hvalue : out.nValue = denomination nBit) :
    vecBits.foldlM (selectBit rand nValueMin nCoins out) sel = selectBit rand nValueMin nCoins out sel nBit := by
  induction vecBits with
  | nil => cases hmem
  | cons b vecBits ih =>
    have hother : ∀ b' ∈ b :: vecBits, out.nValue = denomination b' → b' = nBit := fun b' hb' heq =>
      denomination_inj _ (hbits.bound b' hb') _ (hbits.bound nBit hmem) (heq.symm.trans hvalue)
    rw [List.foldlM_cons]
    obtain rfl | hmem := List.mem_cons.1 hmem
    · have hrest (sel' : Selection) : vecBits.foldlM (selectBit rand nValueMin nCoins out) sel' = .ok sel' :=
        selectBits_other fun b' hb' heq =>
          (List.nodup_cons.1 hbits.nodup).1 (hother b' (List.mem_cons_of_mem _ hb') heq ▸ hb')
      cases hstep : selectBit rand nValueMin nCoins out sel nBit with
      | error sel' => rfl
      | ok sel' => exact hrest sel'
    · have hne : out.nValue ≠ denomination b := fun heq =>
        (List.nodup_cons.1 hbits.nodup).1 (hother b List.mem_cons_self heq ▸ hmem)
      rw [selectBit, if_neg hne]
      exact ih hbits.tail hmem

variable (draws nValueMin) in
theorem selectCoin_cases (hbits : SessionBits vecBits) :
    selectCoin w (insecureRand draws) nValueMin nRoundsMin nRoundsMax vecBits sel out = .ok sel ∨
    (∃ sel', selectCoin w (insecureRand draws) nValueMin nRoundsMin nRoundsMax vecBits sel out = .error sel' ∧
      sel'.coins = sel.coins ∧ sel'.nValueRet = sel.nValueRet ∧ sel'.coins ≠ [] ∧ nValueMin ≤ sel.nValueRet) ∨
    ∃ nBit ∈ vecBits, ∃ nMax nDraws, out.nValue = denomination nBit ∧
      selectCoin w (insecureRand draws) nValueMin nRoundsMin nRoundsMax vecBits sel out =
        .ok (Selection.push { sel with nValueMax := nMax, nDraws := nDraws } out nBit) ∧
      nMax ≤ sel.nValueMax ∧ sel.nValueRet + out.nValue ≤ sel.nValueMax ∧
      nRoundsMin ≤ w.getInputPrivateSendRounds out.txin ∧ w.getInputPrivateSendRounds out.txin < nRoundsMax := by
  unfold selectCoin
  split
  · next hroom =>
    dsimp only
    split
    · exact .inl rfl
    · next hmax =>
      split
      · exact .inl rfl
      · next hmin =>
        have hrounds := And.intro (not_lt.1 hmin) (not_le.1 hmax)
        by_cases hhit : ∃ nBit ∈ vecBits, out.nValue = denomination nBit
        · obtain ⟨nBit, hmem, hvalue⟩ := hhit
          rw [selectBits_hit hbits hmem hvalue, selectBit, if_pos hvalue]
          split
          · next hreached =>
            dsimp only
            split
            · next hdraw =>
              refine .inr (.inl ⟨_, rfl, rfl, rfl, fun hnil => ?_, hreached⟩)
              have hnonneg := insecureRand_nonneg draws (sel.nDraws + 1) w.availableCoins.length
              dsimp only at hnil
              rw [hnil, List.length_nil] at hdraw
              omega
            · have hnonneg := insecureRand_nonneg draws sel.nDraws (sel.nValueMax.tdiv 5)
              exact .inr (.inr ⟨nBit, hmem, _, _, hvalue, rfl, by omega, hroom, hrounds⟩)
          · exact .inr (.inr ⟨nBit, hmem, _, _, hvalue, rfl, le_rfl, hroom, hrounds⟩)
        · exact .inl (selectBits_other fun b hb heq => hhit ⟨b, hb, heq⟩)
  · exact .inl rfl

/-! ## The loop -/

structure Selecting (w : MixingWallet) (nValueMax nRoundsMin nRoundsMax : Int) (vecBits : List Nat) (sel : Selection) : Prop where
  rounds : ∀ out ∈ sel.coins,
    nRoundsMin ≤ w.getInputPrivateSendRounds out.txin ∧ w.getInputPrivateSendRounds out.txin < nRoundsMax
  max_le : sel.nValueMax ≤ nValueMax
  value_le : sel.coins ≠ [] → sel.nValueRet ≤ nValueMax
  result : ∀ i, sel.nDenomResult.testBit i = true ↔ i ∈ vecBits ∧ ∃ out ∈ sel.coins, out.nValue = denomination i

theorem Selecting.push (hbits : SessionBits vecBits) (h : Selecting w nValueMax nRoundsMin nRoundsMax vecBits sel)
    (hmem : nBit ∈ vecBits) (hvalue : out.nValue = denomination nBit) {nMax : Int} (nDraws : Nat) (hmax : nMax ≤ sel.nValueMax)
    (hroom : sel.nValueRet + out.nValue ≤ sel.nValueMax) (hrounds : nRoundsMin ≤ w.getInputPrivateSendRounds out.txin ∧
      w.getInputPrivateSendRounds out.txin < nRoundsMax) :
    Selecting w nValueMax nRoundsMin nRoundsMax vecBits
      (Selection.push { sel with nValueMax := nMax, nDraws := nDraws } out nBit) where
  rounds o ho := by
    obtain ho | ho := List.mem_append.1 ho
    · exact h.rounds o ho
    · rwa [List.mem_singleton.1 ho]
  max_le := hmax.trans h.max_le
  value_le _ := hroom.trans h.max_le
  result i := by
    have hbit : (1 <<< nBit).testBit i = decide (nBit = i) := by rw [Nat.one_shiftLeft, Nat.testBit_two_pow]
    simp only [Selection.push, Nat.testBit_or, hbit, Bool.or_eq_true, h.result, decide_eq_true_eq, List.mem_append,
      List.mem_singleton]
    constructor
    · intro hor
      obtain ⟨hi, o, ho, heq⟩ | rfl := hor
      · exact ⟨hi, o, .inl ho, heq⟩
      · exact ⟨hmem, out, .inr rfl, hvalue⟩
    · intro hand
      obtain ⟨hi, o, ho | rfl, heq⟩ := hand
      · exact .inl ⟨hi, o, ho, heq⟩
      · exact .inr (denomination_inj _ (hbits.bound nBit hmem) _ (hbits.bound i hi) (hvalue.symm.trans heq))

variable (draws nValueMin) in
/-- Where the loop ends, and whether every turn was right; the induction is on the coins. -/
theorem select_run (nDenom : Int) (hbits : SessionBits vecBits) (offered : List COutput)
    (h : Selecting w nValueMax nRoundsMin nRoundsMax vecBits sel) :
    (∃ sel' sel₁, offered.foldlM (selectCoin w (insecureRand draws) nValueMin nRoundsMin nRoundsMax vecBits) sel = .error sel' ∧
      Selecting w nValueMax nRoundsMin nRoundsMax vecBits sel₁ ∧ sel'.coins = sel₁.coins ∧ sel'.nValueRet = sel₁.nValueRet ∧
      sel'.coins ≠ [] ∧ nValueMin ≤ sel₁.nValueRet ∧
      (Meets (turn w draws nValueMin nRoundsMin nRoundsMax vecBits)
        (TurnOk w draws nDenom nValueMin nRoundsMin nRoundsMax vecBits) sel offered ↔ AllFound nDenom sel'.coins)) ∨
    ∃ sel', offered.foldlM (selectCoin w (insecureRand draws) nValueMin nRoundsMin nRoundsMax vecBits) sel = .ok sel' ∧
      Selecting w nValueMax nRoundsMin nRoundsMax vecBits sel' ∧
      Meets (turn w draws nValueMin nRoundsMin nRoundsMax vecBits)
        (TurnOk w draws nDenom nValueMin nRoundsMin nRoundsMax vecBits) sel offered := by
  induction offered generalizing sel with
  | nil => exact .inr ⟨sel, rfl, h, trivial⟩
  | cons out offered ih =>
    have hgoes (sel₁ : Selection) (h₁ : Selecting w nValueMax nRoundsMin nRoundsMax vecBits sel₁)
        (hstep : selectCoin w (insecureRand draws) nValueMin nRoundsMin nRoundsMax vecBits sel out = .ok sel₁) := by
      have hrest := ih h₁
      have hturn : turn w draws nValueMin nRoundsMin nRoundsMax vecBits sel out = some sel₁ := by
        rw [turn, hstep]
        rfl
      have hmeets : Meets (turn w draws nValueMin nRoundsMin nRoundsMax vecBits)
          (TurnOk w draws nDenom nValueMin nRoundsMin nRoundsMax vecBits) sel (out :: offered) ↔
          Meets (turn w draws nValueMin nRoundsMin nRoundsMax vecBits)
            (TurnOk w draws nDenom nValueMin nRoundsMin nRoundsMax vecBits) sel₁ offered := by
        simp [meets_cons, TurnOk, hturn]
      rw [← hmeets] at hrest
      exact hrest
    rw [List.foldlM_cons]
    obtain hsame | ⟨sel', hstop, hcoins, hvalue, hne, hreached⟩ | ⟨nBit, hmem, nMax, nDraws, hvalue, hpush, hmax, hroom, hrounds⟩ :=
      selectCoin_cases draws nValueMin hbits
    · rw [hsame]
      exact hgoes sel h hsame
    · have hturn : turn w draws nValueMin nRoundsMin nRoundsMax vecBits sel out = none := by
        rw [turn, hstop]
        rfl
      rw [hstop]
      refine .inl ⟨sel', sel, rfl, h, hcoins, hvalue, hne, hreached, ?_⟩
      simp [meets_cons, TurnOk, hturn, hcoins]
    · rw [hpush]
      exact hgoes _ (h.push hbits hmem hvalue nDraws hmax hroom hrounds) hpush

theorem mem_vecBits_iff (h : getDenominationsBits nDenom = some vecBits) (i : Nat) : i ∈ vecBits ↔ i < 4 ∧ hasBit nDenom i = true := by
  unfold getDenominationsBits at h
  dsimp only at h
  split at h
  · cases h
  · split at h
    · cases h
    · cases h
      simp [hasBit, vecPrivateSendDenominations]

theorem hasBit_natCast (n i : Nat) : hasBit n i = n.testBit i := by
  have hcast : ((n : Int) >>> i) % 2 = ((n / 2 ^ i % 2 : Nat) : Int) := by
    rw [Int.shiftRight_eq_div_pow]
    norm_cast
  rw [hasBit, hcast, Nat.testBit_eq_decide_div_mod_eq, Bool.eq_iff_iff, beq_iff_eq, decide_eq_true_eq]
  norm_cast

theorem Selecting.complete (h : Selecting w nValueMax nRoundsMin nRoundsMax vecBits sel)
    (hb : getDenominationsBits (sel.nDenomResult : Int) = some vecBits) (hin : InSession vecBits sel.coins) :
    AllFound sel.nDenomResult sel.coins := by
  intro i
  rw [hasBit_natCast, h.result]
  constructor
  · intro hand
    exact ⟨((mem_vecBits_iff hb i).1 hand.1).1, hand.2⟩
  · intro hand
    obtain ⟨hi, out, hout, hvalue⟩ := hand
    obtain ⟨nBit, hmem, heq⟩ := hin out hout
    have hsame := denomination_inj _ hi _ ((mem_vecBits_iff hb nBit).1 hmem).1 (hvalue.symm.trans heq)
    exact ⟨hsame ▸ hmem, out, hout, hvalue⟩

open Ledger.MixingWallet in
def threeCoins : Ledger.MixingWallet :=
  { onePayment with
    view := { nodeAt 10 with mempool := fun _ => true }
    mapWallet := (∅ : Map Uint256 Ledger.CWalletTx).insert 7
      { payment with vout := [⟨denomination 0, []⟩, ⟨denomination 0, []⟩, ⟨denomination 1, []⟩] } }

theorem hash_threeCoins (k : Uint256) (wtx : Ledger.CWalletTx) (hget : threeCoins.mapWallet[k]? = some wtx) : wtx.hash = k := by
  rw [threeCoins, lookup_insert] at hget
  split at hget
  · next hk =>
    cases hget
    exact hk.symm
  · simp at hget

def threeCoinsMixing : MixingWallet := ⟨false, denominatedCoins Ledger.MixingWallet.ownNode threeCoins, fun _ => 0, fun _ => []⟩

end Zumy.PrivateSend
