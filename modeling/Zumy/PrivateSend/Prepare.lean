/-
  Zumy.PrivateSend.Prepare — privatesend.cpp: the inputs and outputs of a client's entry, made by
  PrepareDenominate of the coins that SelectCoinsByDenominations (wallet.cpp) finds.

  The two vectors of the selection grow and shrink together and are one list here. Each step takes
  one coin of each denomination of the session and pays it to a key of its own. What the wallet
  holds and every draw are parameters.

  - `prepare_ten`: five steps over two denominations make ten.
-/
import Zumy.PrivateSend.Denominations

namespace Zumy.PrivateSend

open Lib

structure COutput where
  prevout : COutPoint
  nValue : Int
  deriving DecidableEq, Repr

def COutput.txin (out : COutput) : CTxIn := ⟨out.prevout, [], 2 ^ 32 - 1⟩

structure MixingWallet where
  fLocked : Bool
  /-- `AvailableCoins` with `ONLY_DENOMINATED`, shuffled. -/
  availableCoins : List COutput
  getInputPrivateSendRounds : CTxIn → Int
  /-- The script of each key that is reserved. -/
  reservedScript : Nat → CScript

def denomination (nBit : Nat) : Int := vecPrivateSendDenominations.getD nBit 0

/-- `GetMaxPoolAmount` -/
def maxPoolAmount : Int := privatesendEntryMaxSize * denomination 0

/-! ## SelectCoinsByDenominations -/

structure Selection where
  /-- `vecTxInRet` and `vCoinsRet` -/
  coins : List COutput
  nValueRet : Int
  nValueMax : Int
  nDenomResult : Nat
  nDraws : Nat
  deriving DecidableEq, Repr

def Selection.push (sel : Selection) (out : COutput) (nBit : Nat) : Selection :=
  { sel with
    coins := sel.coins ++ [out]
    nValueRet := sel.nValueRet + out.nValue
    nDenomResult := sel.nDenomResult ||| 1 <<< nBit }

/-- One bit of the session for one coin; `error` is the return in the middle. -/
def selectBit (insecureRand : Nat → Int → Int) (nValueMin : Int) (nCoins : Nat) (out : COutput) (sel : Selection)
    (nBit : Nat) : Except Selection Selection :=
  if out.nValue = denomination nBit then
    if nValueMin ≤ sel.nValueRet then
      let r := insecureRand (sel.nDraws + 1) nCoins
      let sel :=
        { sel with nValueMax := sel.nValueMax - insecureRand sel.nDraws (sel.nValueMax.tdiv 5), nDraws := sel.nDraws + 2 }
      if r < sel.coins.length then .error sel else .ok (sel.push out nBit)
    else .ok (sel.push out nBit)
  else .ok sel

def selectCoin (w : MixingWallet) (insecureRand : Nat → Int → Int) (nValueMin nRoundsMin nRoundsMax : Int)
    (vecBits : List Nat) (sel : Selection) (out : COutput) : Except Selection Selection :=
  if sel.nValueRet + out.nValue ≤ sel.nValueMax then
    let nRounds := w.getInputPrivateSendRounds out.txin
    if nRoundsMax ≤ nRounds then .ok sel
    else if nRounds < nRoundsMin then .ok sel
    else vecBits.foldlM (selectBit insecureRand nValueMin w.availableCoins.length out) sel
  else .ok sel

def selectCoinsByDenominations (w : MixingWallet) (insecureRand : Nat → Int → Int) (nDenom nValueMin nValueMax : Int)
    (nRoundsMin nRoundsMax : Int) : Bool × Selection :=
  let sel : Selection := ⟨[], 0, nValueMax, 0, 0⟩
  match getDenominationsBits nDenom with
  | none => (false, sel)
  | some vecBits =>
    match w.availableCoins.foldlM (selectCoin w insecureRand nValueMin nRoundsMin nRoundsMax vecBits) sel with
    | .error sel => (true, sel)
    | .ok sel => (nValueMin ≤ sel.nValueRet && nDenom == sel.nDenomResult, sel)

/-! ## PrepareDenominate -/

structure Taking where
  /-- `vecTxIn` and `vCoins`, less what was taken -/
  coins : List COutput
  vecTxInRet : List CTxIn
  vecTxOutRet : List CTxOut
  nValueLeft : Int
  deriving DecidableEq, Repr

def takeBit (w : MixingWallet) (t : Taking) (nBit : Nat) : Taking :=
  let nValueDenom := denomination nBit
  if t.nValueLeft - nValueDenom < 0 then t
  else
    match t.coins.find? (·.nValue == nValueDenom) with
    | none => t
    | some out =>
      { coins := t.coins.eraseP (·.nValue == nValueDenom)
        vecTxInRet := t.vecTxInRet ++ [out.txin]
        vecTxOutRet := t.vecTxOutRet ++ [⟨nValueDenom, w.reservedScript t.vecTxOutRet.length⟩]
        nValueLeft := t.nValueLeft - nValueDenom }

/-- `while (nStep < nStepsMax)`, by the steps that are left -/
def takeSteps (w : MixingWallet) (vecBits : List Nat) : Nat → Taking → Taking
  | 0, t => t
  | nSteps + 1, t =>
    let t := vecBits.foldl (takeBit w) t
    if t.nValueLeft = 0 then t else takeSteps w vecBits nSteps t

/-- What the call writes to: the caller's text and vectors, and the wallet's locked coins. -/
structure Prepared where
  strErrorRet : String
  vecTxInRet : List CTxIn
  vecTxOutRet : List CTxOut
  setLockedCoins : Std.TreeSet COutPoint compare

structure PrepareCall where
  pwalletMain : Option MixingWallet
  nEntriesCount : Nat
  nSessionDenom : Int
  nMinRounds : Int
  nMaxRounds : Int
  /-- The draws of the selection, by their number and bound. -/
  insecureRand : Nat → Int → Int
  getRandInt : Fin (privatesendEntryMaxSize - 5 + 1)

def lockCoins (coins : List CTxIn) (locked : Std.TreeSet COutPoint compare) : Std.TreeSet COutPoint compare :=
  coins.foldl (fun locked txin => locked.insert txin.prevout) locked

def unlockCoins (coins : List CTxIn) (locked : Std.TreeSet COutPoint compare) : Std.TreeSet COutPoint compare :=
  coins.foldl (fun locked txin => locked.erase txin.prevout) locked

def PrepareCall.nStepsMax (c : PrepareCall) : Nat := 5 + c.getRandInt

def PrepareCall.select (c : PrepareCall) (w : MixingWallet) (vecBits : List Nat) : Bool × Selection :=
  selectCoinsByDenominations w c.insecureRand c.nSessionDenom (denomination (vecBits.headD 0)) maxPoolAmount c.nMinRounds
    c.nMaxRounds

def PrepareCall.take (c : PrepareCall) (w : MixingWallet) (vecBits : List Nat) : Taking :=
  let sel := (c.select w vecBits).2
  takeSteps w vecBits c.nStepsMax ⟨sel.coins, [], [], sel.nValueRet⟩

def prepareDenominate (c : PrepareCall) (ret : Prepared) : Bool × Prepared :=
  match c.pwalletMain with
  | none => (false, ret)
  | some w =>
    if w.fLocked then (false, { ret with strErrorRet := "Wallet locked, unable to create transaction!" })
    else if 0 < c.nEntriesCount then
      (false, { ret with strErrorRet := "Already have pending entries in the PrivateSend pool" })
    else
      let ret := { ret with vecTxInRet := [], vecTxOutRet := [] }
      match getDenominationsBits c.nSessionDenom with
      | none => (false, { ret with strErrorRet := "Incorrect session denom" })
      | some vecBits =>
        if 0 ≤ c.nMinRounds && !(c.select w vecBits).1 then
          (false, { ret with strErrorRet := "Can't select current denominated inputs" })
        else
          let locked := lockCoins ((c.select w vecBits).2.coins.map (·.txin)) ret.setLockedCoins
          let t := c.take w vecBits
          let locked := unlockCoins (t.coins.map (·.txin)) locked
          if getDenominations t.vecTxOutRet ≠ c.nSessionDenom then
            (false, ⟨"Can't make current denominated outputs", t.vecTxInRet, t.vecTxOutRet, unlockCoins t.vecTxInRet locked⟩)
          else (true, { ret with vecTxInRet := t.vecTxInRet, vecTxOutRet := t.vecTxOutRet, setLockedCoins := locked })

/-! ## The selection -/

variable {w : MixingWallet} {vecBits : List Nat}

structure SessionBits (vecBits : List Nat) : Prop where
  nodup : vecBits.Nodup
  bound : ∀ nBit ∈ vecBits, nBit < 4

theorem SessionBits.of_denom {nDenom : Int} (h : getDenominationsBits nDenom = some vecBits) : SessionBits vecBits := by
  refine ⟨?_, (getDenominationsBits_some h).2⟩
  unfold getDenominationsBits at h
  dsimp only at h
  split at h
  · cases h
  split at h
  · cases h
  · cases h
    exact List.nodup_range.filter _

theorem SessionBits.tail {nBit : Nat} (h : SessionBits (nBit :: vecBits)) : SessionBits vecBits :=
  ⟨(List.nodup_cons.1 h.nodup).2, fun b hb => h.bound b (List.mem_cons_of_mem _ hb)⟩

theorem denomination_inj : ∀ a < 4, ∀ b < 4, denomination a = denomination b → a = b := by decide

theorem denomination_pos : ∀ b < 4, 0 < denomination b := by decide

def InSession (vecBits : List Nat) (coins : List COutput) : Prop :=
  ∀ out ∈ coins, ∃ nBit ∈ vecBits, out.nValue = denomination nBit

def totalValue (coins : List COutput) : Int := (coins.map (·.nValue)).sum

structure Added (vecBits : List Nat) (offered : List COutput) (sel sel' : Selection) : Prop where
  coins : ∃ extra, extra.Sublist offered ∧ InSession vecBits extra ∧ sel'.coins = sel.coins ++ extra ∧
    sel'.nValueRet = sel.nValueRet + totalValue extra

theorem Added.none {offered : List COutput} {sel sel' : Selection} (hcoins : sel'.coins = sel.coins)
    (hvalue : sel'.nValueRet = sel.nValueRet) : Added vecBits offered sel sel' := by
  refine ⟨[], List.nil_sublist _, fun out hout => absurd hout List.not_mem_nil, ?_, ?_⟩
  · rw [hcoins, List.append_nil]
  · rw [hvalue]
    exact (Int.add_zero _).symm

theorem Added.append {l l' : List COutput} {sel sel' sel'' : Selection} (h : Added vecBits l sel sel')
    (h' : Added vecBits l' sel' sel'') : Added vecBits (l ++ l') sel sel'' := by
  obtain ⟨extra, hsub, hin, hcoins, hvalue⟩ := h.coins
  obtain ⟨extra', hsub', hin', hcoins', hvalue'⟩ := h'.coins
  refine ⟨extra ++ extra', hsub.append hsub', fun out hout => ?_, ?_, ?_⟩
  · rcases List.mem_append.1 hout with hout | hout
    · exact hin out hout
    · exact hin' out hout
  · rw [hcoins', hcoins, List.append_assoc]
  · rw [hvalue', hvalue, totalValue, totalValue, totalValue, List.map_append, List.sum_append, Int.add_assoc]

def selection : Except Selection Selection → Selection
  | .error sel => sel
  | .ok sel => sel

variable {insecureRand : Nat → Int → Int} {nValueMin nRoundsMin nRoundsMax : Int} {nCoins : Nat} {out : COutput}
  {sel : Selection}

theorem selectBits_other (h : ∀ nBit ∈ vecBits, out.nValue ≠ denomination nBit) :
    vecBits.foldlM (selectBit insecureRand nValueMin nCoins out) sel = .ok sel := by
  induction vecBits with
  | nil => rfl
  | cons nBit vecBits ih =>
    rw [List.foldlM_cons, selectBit, if_neg (h nBit (List.mem_cons_self ..))]
    exact ih fun b hb => h b (List.mem_cons_of_mem _ hb)

theorem selectBits_added (hbits : SessionBits vecBits) :
    Added vecBits [out] sel (selection (vecBits.foldlM (selectBit insecureRand nValueMin nCoins out) sel)) := by
  induction vecBits with
  | nil => exact Added.none rfl rfl
  | cons nBit vecBits ih =>
    by_cases hvalue : out.nValue = denomination nBit
    · -- no other bit is worth as much
      have hother : ∀ b ∈ vecBits, out.nValue ≠ denomination b := by
        intro b hb heq
        have hsame := denomination_inj _ (hbits.bound nBit (List.mem_cons_self ..)) _ (hbits.tail.bound b hb)
          (hvalue.symm.trans heq)
        rw [hsame] at hbits
        exact (List.nodup_cons.1 hbits.nodup).1 hb
      have hpush : ∀ sel' : Selection, sel'.coins = sel.coins → sel'.nValueRet = sel.nValueRet →
          Added (nBit :: vecBits) [out] sel (sel'.push out nBit) := by
        intro sel' hcoins hret
        refine ⟨[out], List.Sublist.refl _, fun o ho => ⟨nBit, List.mem_cons_self .., ?_⟩, ?_, ?_⟩
        · rw [List.mem_singleton.1 ho, hvalue]
        · rw [← hcoins]
          rfl
        · rw [← hret, totalValue, List.map_singleton, List.sum_singleton]
          rfl
      rw [List.foldlM_cons, selectBit, if_pos hvalue]
      split
      · dsimp only
        split
        · exact Added.none rfl rfl
        · change Added _ _ _ (selection (vecBits.foldlM _ _))
          rw [selectBits_other hother]
          exact hpush _ rfl rfl
      · change Added _ _ _ (selection (vecBits.foldlM _ _))
        rw [selectBits_other hother]
        exact hpush _ rfl rfl
    · rw [List.foldlM_cons, selectBit, if_neg hvalue]
      obtain ⟨extra, hsub, hin, hcoins, hret⟩ := (ih hbits.tail).coins
      refine ⟨extra, hsub, fun o ho => ?_, hcoins, hret⟩
      obtain ⟨b, hb, heq⟩ := hin o ho
      exact ⟨b, List.mem_cons_of_mem _ hb, heq⟩

theorem selectCoin_added (hbits : SessionBits vecBits) :
    Added vecBits [out] sel (selection (selectCoin w insecureRand nValueMin nRoundsMin nRoundsMax vecBits sel out)) := by
  unfold selectCoin
  split
  · dsimp only
    split
    · exact Added.none rfl rfl
    · split
      · exact Added.none rfl rfl
      · exact selectBits_added hbits
  · exact Added.none rfl rfl

theorem selectCoins_added (hbits : SessionBits vecBits) (offered : List COutput) :
    Added vecBits offered sel
      (selection (offered.foldlM (selectCoin w insecureRand nValueMin nRoundsMin nRoundsMax vecBits) sel)) := by
  induction offered generalizing sel with
  | nil => exact Added.none rfl rfl
  | cons out offered ih =>
    have hone : Added vecBits [out] sel
        (selection (selectCoin w insecureRand nValueMin nRoundsMin nRoundsMax vecBits sel out)) := selectCoin_added hbits
    rw [List.foldlM_cons]
    cases hcoin : selectCoin w insecureRand nValueMin nRoundsMin nRoundsMax vecBits sel out with
    | error sel' =>
      rw [hcoin] at hone
      obtain ⟨extra, hsub, hrest⟩ := hone.coins
      exact ⟨extra, hsub.trans (List.singleton_sublist.2 (List.mem_cons_self ..)), hrest⟩
    | ok sel' =>
      rw [hcoin] at hone
      exact hone.append ih

/-- The coins of a selection are among those of the wallet, worth what the session asks for, and their value is their sum. -/
theorem selectCoins_spec {nDenom nValueMax : Int} (h : getDenominationsBits nDenom = some vecBits) :
    (selectCoinsByDenominations w insecureRand nDenom nValueMin nValueMax nRoundsMin nRoundsMax).2.coins.Sublist
        w.availableCoins ∧
      InSession vecBits (selectCoinsByDenominations w insecureRand nDenom nValueMin nValueMax nRoundsMin nRoundsMax).2.coins ∧
      (selectCoinsByDenominations w insecureRand nDenom nValueMin nValueMax nRoundsMin nRoundsMax).2.nValueRet =
        totalValue (selectCoinsByDenominations w insecureRand nDenom nValueMin nValueMax nRoundsMin nRoundsMax).2.coins := by
  have hadded : Added vecBits w.availableCoins ⟨[], 0, nValueMax, 0, 0⟩
      (selectCoinsByDenominations w insecureRand nDenom nValueMin nValueMax nRoundsMin nRoundsMax).2 := by
    have hall : Added vecBits w.availableCoins ⟨[], 0, nValueMax, 0, 0⟩ (selection (w.availableCoins.foldlM
        (selectCoin w insecureRand nValueMin nRoundsMin nRoundsMax vecBits) ⟨[], 0, nValueMax, 0, 0⟩)) :=
      selectCoins_added (SessionBits.of_denom h) w.availableCoins
    unfold selectCoinsByDenominations
    simp only [h]
    split
    · rename_i sel hrun
      rwa [hrun] at hall
    · rename_i sel hrun
      rwa [hrun] at hall
  obtain ⟨extra, hsub, hin, hcoins, hret⟩ := hadded.coins
  rw [List.nil_append] at hcoins
  rw [Int.zero_add] at hret
  rw [hcoins, hret]
  exact ⟨hsub, hin, rfl⟩

/-! ## The steps -/

def countOf (nValue : Int) (coins : List COutput) : Nat := coins.countP (·.nValue == nValue)

theorem countOf_append {nValue : Int} {l l' : List COutput} : countOf nValue (l ++ l') = countOf nValue l + countOf nValue l' :=
  List.countP_append ..

/-- `used` was taken of `start`, each coin paid to an output of its value. -/
structure Took (start used : List COutput) (t : Taking) : Prop where
  coins : start.Perm (used ++ t.coins)
  inputs : t.vecTxInRet = used.map (·.txin)
  outputs : t.vecTxOutRet.map (·.nValue) = used.map (·.nValue)
  left : t.nValueLeft = totalValue t.coins

def Worthy (coins : List COutput) : Prop := ∀ out ∈ coins, 0 < out.nValue

variable {start used coins : List COutput} {t : Taking} {nBit nSteps : Nat} {nValue : Int}

theorem totalValue_nonneg (h : Worthy coins) : 0 ≤ totalValue coins := by
  induction coins with
  | nil => exact Int.le_refl _
  | cons out coins ih =>
    have hrest := ih fun o ho => h o (List.mem_cons_of_mem _ ho)
    have hone := h out (List.mem_cons_self ..)
    rw [totalValue, List.map_cons, List.sum_cons]
    rw [totalValue] at hrest
    omega

theorem eq_nil_of_totalValue (h : Worthy coins) (hzero : totalValue coins = 0) : coins = [] := by
  cases coins with
  | nil => rfl
  | cons out coins =>
    have hrest : 0 ≤ totalValue coins := totalValue_nonneg fun o ho => h o (List.mem_cons_of_mem _ ho)
    have hone := h out (List.mem_cons_self ..)
    rw [totalValue, List.map_cons, List.sum_cons] at hzero
    rw [totalValue] at hrest
    omega

theorem perm_eraseP {p : COutput → Bool} {out : COutput} (h : coins.find? p = some out) :
    coins.Perm (out :: coins.eraseP p) ∧ p out = true := by
  obtain ⟨hp, as, bs, rfl, hnone⟩ := List.find?_eq_some_iff_append.1 h
  have has : ∀ a ∈ as, ¬ p a = true := fun a ha => by simpa using hnone a ha
  refine ⟨?_, hp⟩
  rw [List.eraseP_append_right _ has, List.eraseP_cons_of_pos hp]
  exact List.perm_middle

theorem Took.worthy (h : Took start used t) (hw : Worthy start) : Worthy t.coins :=
  fun out hout => hw out (h.coins.mem_iff.2 (List.mem_append_right _ hout))

/-- One bit takes one coin of its denomination, where there is one: the value that is left always holds it. -/
theorem takeBit_took (w : MixingWallet) (nBit : Nat) (h : Took start used t) (hw : Worthy start) :
    ∃ used', Took start used' (takeBit w t nBit) ∧
      ∀ v, countOf v (takeBit w t nBit).coins = countOf v t.coins - [denomination nBit].count v := by
  cases hfind : t.coins.find? (·.nValue == denomination nBit) with
  | none =>
    have hsame : takeBit w t nBit = t := by
      unfold takeBit
      dsimp only
      rw [hfind]
      exact ite_self _
    refine ⟨used, by rwa [hsame], fun v => ?_⟩
    rw [hsame, List.count_singleton]
    by_cases hv : denomination nBit = v
    · have hzero : countOf v t.coins = 0 := by
        rw [countOf, List.countP_eq_zero, ← hv]
        exact fun out hout => List.find?_eq_none.1 hfind out hout
      rw [hzero, Nat.zero_sub]
    · rw [if_neg (by simpa using hv), Nat.sub_zero]
  | some out =>
    obtain ⟨hperm, hp⟩ := perm_eraseP hfind
    rw [beq_iff_eq] at hp
    have hleft : t.nValueLeft = out.nValue + totalValue (t.coins.eraseP (·.nValue == denomination nBit)) := by
      rw [h.left, totalValue, (hperm.map _).sum_eq]
      rfl
    have hrest : 0 ≤ totalValue (t.coins.eraseP (·.nValue == denomination nBit)) :=
      totalValue_nonneg fun o ho => h.worthy hw o (List.mem_of_mem_eraseP ho)
    have htake : takeBit w t nBit =
        { coins := t.coins.eraseP (·.nValue == denomination nBit)
          vecTxInRet := t.vecTxInRet ++ [out.txin]
          vecTxOutRet := t.vecTxOutRet ++ [⟨denomination nBit, w.reservedScript t.vecTxOutRet.length⟩]
          nValueLeft := t.nValueLeft - denomination nBit } := by
      unfold takeBit
      dsimp only
      rw [if_neg (by omega), hfind]
    rw [htake]
    refine ⟨used ++ [out], ⟨?_, ?_, ?_, ?_⟩, fun v => ?_⟩
    · rw [List.append_assoc]
      exact h.coins.trans (hperm.append_left used)
    · rw [List.map_append, ← h.inputs]
      rfl
    · rw [List.map_append, List.map_append, ← h.outputs, ← hp]
      rfl
    · show t.nValueLeft - denomination nBit = totalValue (t.coins.eraseP (·.nValue == denomination nBit))
      omega
    · have hcount := hperm.countP_eq (·.nValue == v)
      rw [List.countP_cons, hp] at hcount
      rw [List.count_singleton, countOf, countOf, hcount]
      exact (Nat.add_sub_cancel ..).symm

theorem foldl_took (w : MixingWallet) (vecBits : List Nat) (h : Took start used t) (hw : Worthy start) :
    ∃ used', Took start used' (vecBits.foldl (takeBit w) t) ∧
      ∀ v, countOf v (vecBits.foldl (takeBit w) t).coins = countOf v t.coins - (vecBits.map denomination).count v := by
  induction vecBits generalizing used t with
  | nil => exact ⟨used, h, fun v => rfl⟩
  | cons nBit vecBits ih =>
    obtain ⟨used', htook, hcount⟩ := takeBit_took w nBit h hw
    obtain ⟨used'', htook', hcount'⟩ := ih htook
    refine ⟨used'', htook', fun v => ?_⟩
    rw [List.foldl_cons, hcount', hcount, Nat.sub_sub, List.map_cons, List.count_singleton, List.count_cons, Nat.add_comm]

theorem takeSteps_took (w : MixingWallet) (vecBits : List Nat) (nSteps : Nat) (h : Took start used t) (hw : Worthy start) :
    ∃ used', Took start used' (takeSteps w vecBits nSteps t) ∧
      ∀ v, countOf v (takeSteps w vecBits nSteps t).coins = countOf v t.coins - nSteps * (vecBits.map denomination).count v := by
  induction nSteps generalizing used t with
  | zero => exact ⟨used, h, fun v => by rw [Nat.zero_mul]; rfl⟩
  | succ nSteps ih =>
    obtain ⟨used', htook, hcount⟩ := foldl_took w vecBits h hw
    rw [takeSteps]
    split
    · rename_i hzero
      -- all coins are taken
      refine ⟨used', htook, fun v => ?_⟩
      have hnil := eq_nil_of_totalValue (htook.worthy hw) (htook.left.symm.trans hzero)
      have hv := hcount v
      rw [hnil] at hv ⊢
      rw [Nat.add_mul, Nat.one_mul, Nat.add_comm, ← Nat.sub_sub, ← hv]
      exact (Nat.zero_sub _).symm
    · obtain ⟨used'', htook', hcount'⟩ := ih htook
      refine ⟨used'', htook', fun v => ?_⟩
      rw [hcount', hcount, Nat.sub_sub, Nat.add_mul, Nat.one_mul, Nat.add_comm]

/-! ## Denominations of the outputs -/

theorem count_denomination (hbits : SessionBits vecBits) (hin : nBit ∈ vecBits) :
    (vecBits.map denomination).count (denomination nBit) = 1 := by
  apply List.count_eq_one_of_mem
  · refine List.Nodup.map_on (fun a ha b hb heq => ?_) hbits.nodup
    exact denomination_inj a (hbits.bound a ha) b (hbits.bound b hb) heq
  · exact List.mem_map_of_mem hin

theorem sum_matches (vecBits : List Nat) (nValue : Int) :
    (vecBits.map fun b => if nValue == denomination b then 1 else 0).sum = (vecBits.map denomination).count nValue := by
  induction vecBits with
  | nil => rfl
  | cons nBit vecBits ih =>
    rw [List.map_cons, List.sum_cons, ih, List.map_cons, List.count_cons, Nat.add_comm, BEq.comm]

theorem length_eq_sum (hbits : SessionBits vecBits) (hin : InSession vecBits coins) :
    coins.length = (vecBits.map fun nBit => countOf (denomination nBit) coins).sum := by
  induction coins with
  | nil => simp [countOf]
  | cons out coins ih =>
    obtain ⟨nBit, hmem, hvalue⟩ := hin out (List.mem_cons_self ..)
    have hone : (vecBits.map fun b => if out.nValue == denomination b then 1 else 0).sum = 1 := by
      rw [sum_matches, hvalue]
      exact count_denomination hbits hmem
    have hsplit : (vecBits.map fun b => countOf (denomination b) (out :: coins)) =
        vecBits.map fun b => countOf (denomination b) coins + if out.nValue == denomination b then 1 else 0 := by
      apply List.map_congr_left
      intro b _
      exact List.countP_cons ..
    rw [hsplit, List.sum_map_add, hone, ← ih fun o ho => hin o (List.mem_cons_of_mem _ ho), List.length_cons]

/-- The number of some outputs has a bit for each denomination that is among them. -/
theorem getDenominations_bit {vecTxOut : List CTxOut}
    (hstandard : ∀ txout ∈ vecTxOut, txout.nValue ∈ vecPrivateSendDenominations) {i : Nat} (hi : i < 4) :
    hasBit (getDenominations vecTxOut) i = vecTxOut.any (·.nValue == denomination i) := by
  have hall : (vecTxOut.all fun txout => vecPrivateSendDenominations.any (txout.nValue == ·)) = true := by
    simpa using hstandard
  unfold getDenominations
  rw [if_pos hall, denomination]
  -- only the four answers whether a denomination is used are left
  obtain rfl | rfl | rfl | rfl : i = 0 ∨ i = 1 ∨ i = 2 ∨ i = 3 := by omega
  all_goals
    simp only [vecPrivateSendDenominations, List.zipIdx_cons, List.zipIdx_nil, List.foldl_cons, List.foldl_nil,
      List.getD_cons_zero, List.getD_cons_succ]
    generalize (vecTxOut.any fun x => x.nValue == 10 * coin + 10000) = b₀
    generalize (vecTxOut.any fun x => x.nValue == coin + 1000) = b₁
    generalize (vecTxOut.any fun x => x.nValue == 10000100) = b₂
    generalize (vecTxOut.any fun x => x.nValue == 1000010) = b₃
    clear hall hstandard
    revert b₀ b₁ b₂ b₃
    decide

theorem getDenominations_congr {vecTxOut vecTxOut' : List CTxOut}
    (h : ∀ nValue, nValue ∈ vecTxOut.map (·.nValue) ↔ nValue ∈ vecTxOut'.map (·.nValue)) :
    getDenominations vecTxOut = getDenominations vecTxOut' := by
  have hany : ∀ nValue, vecTxOut.any (·.nValue == nValue) = vecTxOut'.any (·.nValue == nValue) := by
    intro nValue
    rw [Bool.eq_iff_iff, List.any_eq_true, List.any_eq_true]
    simpa [List.mem_map] using h nValue
  have hall : (vecTxOut.all fun txout => vecPrivateSendDenominations.any (txout.nValue == ·)) =
      vecTxOut'.all fun txout => vecPrivateSendDenominations.any (txout.nValue == ·) := by
    have hmap : ∀ l : List CTxOut, (l.all fun txout => vecPrivateSendDenominations.any (txout.nValue == ·)) =
        (l.map (·.nValue)).all fun nValue => vecPrivateSendDenominations.any (nValue == ·) := fun l => by
      rw [List.all_map]
      rfl
    rw [hmap, hmap, Bool.eq_iff_iff, List.all_eq_true, List.all_eq_true]
    exact forall_congr' fun nValue => by rw [h nValue]
  unfold getDenominations
  rw [hall]
  simp only [hany]

/-! ## The entry -/

variable {c : PrepareCall}

def PrepareCall.pairs (c : PrepareCall) (w : MixingWallet) (vecBits : List Nat) : Nat :=
  (vecBits.map fun nBit => min c.nStepsMax (countOf (denomination nBit) (c.select w vecBits).2.coins)).sum

theorem take_spec (h : getDenominationsBits c.nSessionDenom = some vecBits) :
    ∃ used, used.Subperm w.availableCoins ∧ InSession vecBits used ∧ (c.take w vecBits).vecTxInRet = used.map (·.txin) ∧
      (c.take w vecBits).vecTxOutRet.map (·.nValue) = used.map (·.nValue) ∧
      (∀ nBit ∈ vecBits, countOf (denomination nBit) used =
        min c.nStepsMax (countOf (denomination nBit) (c.select w vecBits).2.coins)) ∧
      used.length = c.pairs w vecBits := by
  have hbits := SessionBits.of_denom h
  obtain ⟨hsub, hin, hret⟩ : (c.select w vecBits).2.coins.Sublist w.availableCoins ∧
      InSession vecBits (c.select w vecBits).2.coins ∧
      (c.select w vecBits).2.nValueRet = totalValue (c.select w vecBits).2.coins := selectCoins_spec h
  have hw : Worthy (c.select w vecBits).2.coins := by
    intro out hout
    obtain ⟨nBit, hmem, hvalue⟩ := hin out hout
    rw [hvalue]
    exact denomination_pos nBit (hbits.bound nBit hmem)
  have hstart : Took (c.select w vecBits).2.coins [] ⟨(c.select w vecBits).2.coins, [], [], (c.select w vecBits).2.nValueRet⟩ :=
    ⟨List.Perm.refl _, rfl, rfl, hret⟩
  obtain ⟨used, htook, hcount⟩ := takeSteps_took w vecBits c.nStepsMax hstart hw
  have hused : InSession vecBits used := fun out hout => hin out (htook.coins.mem_iff.2 (List.mem_append_left _ hout))
  have hcounts : ∀ nBit ∈ vecBits, countOf (denomination nBit) used =
      min c.nStepsMax (countOf (denomination nBit) (c.select w vecBits).2.coins) := by
    intro nBit hmem
    have hleft := hcount (denomination nBit)
    have hall : countOf (denomination nBit) (c.select w vecBits).2.coins = countOf (denomination nBit) (used ++ _) :=
      htook.coins.countP_eq _
    rw [countOf_append] at hall
    rw [count_denomination hbits hmem, Nat.mul_one] at hleft
    dsimp only at hleft
    omega
  refine ⟨used, ?_, hused, htook.inputs, htook.outputs, hcounts, ?_⟩
  · exact (List.sublist_append_left used _).subperm.trans (htook.coins.symm.subperm.trans hsub.subperm)
  · rw [length_eq_sum hbits hused, PrepareCall.pairs]
    exact congrArg List.sum (List.map_congr_left hcounts)

/-- What the masternode takes for an entry of the session: inputs and outputs in pairs, within its limits. -/
structure FitsLimits (c : PrepareCall) (w : MixingWallet) (vecBits : List Nat) (ret : Prepared) : Prop where
  paired : ∃ used : List COutput, used.Subperm w.availableCoins ∧ ret.vecTxInRet = used.map (·.txin) ∧
    (ret.vecTxOutRet.map (·.nValue)).sum = (used.map (·.nValue)).sum
  session : ∀ txout ∈ ret.vecTxOutRet, ∃ nBit ∈ vecBits, txout.nValue = denomination nBit
  denom : getDenominations ret.vecTxOutRet = c.nSessionDenom
  inputs : ret.vecTxInRet.length ≤ privatesendEntryMaxSize
  outputs : ret.vecTxOutRet.length ≤ privatesendEntryMaxSize

def PrepareWell (c : PrepareCall) (ret : Prepared) : Prop :=
  (prepareDenominate c ret).1 = true → ∃ w vecBits, c.pwalletMain = some w ∧
    getDenominationsBits c.nSessionDenom = some vecBits ∧ FitsLimits c w vecBits (prepareDenominate c ret).2

structure GoesThrough (c : PrepareCall) (w : MixingWallet) (vecBits : List Nat) : Prop where
  wallet : c.pwalletMain = some w
  unlocked : w.fLocked = false
  noEntries : c.nEntriesCount = 0
  positive : 0 < c.nSessionDenom
  bits : getDenominationsBits c.nSessionDenom = some vecBits
  selects : 0 ≤ c.nMinRounds → (c.select w vecBits).1 = true
  found : ∀ nBit ∈ vecBits, 0 < countOf (denomination nBit) (c.select w vecBits).2.coins

theorem countOf_pos {nValue : Int} {coins : List COutput} : 0 < countOf nValue coins ↔ nValue ∈ coins.map (·.nValue) := by
  rw [countOf, List.countP_pos_iff, List.mem_map]
  simp only [beq_iff_eq]

theorem hasBit_of_mem {nDenom : Int} (h : getDenominationsBits nDenom = some vecBits) {nBit : Nat} (hmem : nBit ∈ vecBits) :
    hasBit nDenom nBit = true := by
  unfold getDenominationsBits at h
  dsimp only at h
  split at h
  · cases h
  split at h
  · cases h
  · cases h
    exact (List.mem_filter.1 hmem).2

theorem getDenominations_nonneg (vecTxOut : List CTxOut) : 0 ≤ getDenominations vecTxOut := by
  unfold getDenominations
  split
  · exact Int.natCast_nonneg _
  · exact Int.le_refl _

/-- The outputs have the session's number when each of its denominations is found among the coins. -/
theorem take_denominations (h : getDenominationsBits c.nSessionDenom = some vecBits) :
    getDenominations (c.take w vecBits).vecTxOutRet = c.nSessionDenom ↔
      0 < c.nSessionDenom ∧ ∀ nBit ∈ vecBits, 0 < countOf (denomination nBit) (c.select w vecBits).2.coins := by
  have hbits := SessionBits.of_denom h
  obtain ⟨hlt, hlow⟩ := (decoders_take_iff c.nSessionDenom).1.1 (Option.isSome_iff_exists.2 ⟨_, h⟩)
  obtain ⟨used, -, hused, -, houtputs, hcounts, -⟩ := take_spec (w := w) h
  constructor
  · intro heq
    have hnonneg := getDenominations_nonneg (c.take w vecBits).vecTxOutRet
    refine ⟨by omega, fun nBit hmem => ?_⟩
    have hstandard : ∀ txout ∈ (c.take w vecBits).vecTxOutRet, txout.nValue ∈ vecPrivateSendDenominations := by
      intro txout hout
      have hvalue : txout.nValue ∈ used.map (·.nValue) := houtputs ▸ List.mem_map_of_mem hout
      obtain ⟨out, hin, hsame⟩ := List.mem_map.1 hvalue
      obtain ⟨b, hb, hdenom⟩ := hused out hin
      rw [← hsame, hdenom]
      exact standard_outputsOf (hbits.bound) ⟨denomination b, []⟩ (List.mem_map_of_mem hb)
    have hbit := hasBit_of_mem h hmem
    rw [← heq, getDenominations_bit hstandard (hbits.bound nBit hmem), List.any_eq_true] at hbit
    obtain ⟨txout, hout, hvalue⟩ := hbit
    have hin : denomination nBit ∈ used.map (·.nValue) := by
      rw [← houtputs, ← eq_of_beq hvalue]
      exact List.mem_map_of_mem hout
    have hpos := countOf_pos.2 hin
    rw [hcounts nBit hmem] at hpos
    omega
  · rintro ⟨hpos, hfound⟩
    rw [← encode_bits (isDenomination_iff.2 ⟨hpos, hlt⟩) h]
    apply getDenominations_congr
    intro nValue
    rw [houtputs, outputsOf, List.map_map, List.mem_map, List.mem_map]
    constructor
    · rintro ⟨out, hin, rfl⟩
      obtain ⟨b, hb, hdenom⟩ := hused out hin
      exact ⟨b, hb, hdenom.symm⟩
    · rintro ⟨b, hb, rfl⟩
      have hsteps : 0 < c.nStepsMax := Nat.add_pos_left (by decide) _
      have hcount : 0 < countOf (denomination b) used := by
        rw [hcounts b hb]
        exact Nat.lt_min.2 ⟨hsteps, hfound b hb⟩
      exact List.mem_map.1 (countOf_pos.1 hcount)

theorem prepare_succeeds (ret : Prepared) (h : GoesThrough c w vecBits) :
    (prepareDenominate c ret).1 = true ∧
      (prepareDenominate c ret).2.vecTxInRet = (c.take w vecBits).vecTxInRet ∧
      (prepareDenominate c ret).2.vecTxOutRet = (c.take w vecBits).vecTxOutRet := by
  have hselected : ¬ (decide (0 ≤ c.nMinRounds) && !(c.select w vecBits).1) = true := by
    intro hno
    rw [Bool.and_eq_true, decide_eq_true_iff] at hno
    rw [h.selects hno.1] at hno
    exact Bool.noConfusion hno.2
  have hdenom := (take_denominations (w := w) h.bits).2 ⟨h.positive, h.found⟩
  unfold prepareDenominate
  simp only [h.wallet, h.bits]
  rw [if_neg (by rw [h.unlocked]; exact Bool.false_ne_true), if_neg (by rw [h.noEntries]; exact Nat.lt_irrefl 0),
    if_neg hselected, if_neg (fun hne => hne hdenom)]
  exact ⟨rfl, rfl, rfl⟩

theorem goesThrough_of_succeeds {ret : Prepared} (h : (prepareDenominate c ret).1 = true) :
    ∃ w vecBits, GoesThrough c w vecBits := by
  unfold prepareDenominate at h
  split at h
  · cases h
  · rename_i w hwallet
    split at h
    · cases h
    · rename_i hunlocked
      split at h
      · cases h
      · rename_i hentries
        dsimp only at h
        split at h
        · cases h
        · rename_i vecBits hbits
          split at h
          · cases h
          · rename_i hselected
            split at h
            · cases h
            · rename_i hdenom
              rw [not_not] at hdenom
              obtain ⟨hpos, hfound⟩ := (take_denominations hbits).1 hdenom
              exact ⟨w, vecBits, hwallet, by simpa using hunlocked, by omega, hpos, hbits, by simpa using hselected, hfound⟩

theorem length_take (h : getDenominationsBits c.nSessionDenom = some vecBits) :
    (c.take w vecBits).vecTxOutRet.length = c.pairs w vecBits ∧ (c.take w vecBits).vecTxInRet.length = c.pairs w vecBits := by
  obtain ⟨used, -, -, hinputs, houtputs, -, hlen⟩ := take_spec (w := w) h
  have houts := congrArg List.length houtputs
  rw [List.length_map, List.length_map] at houts
  exact ⟨houts.trans hlen, by rw [hinputs, List.length_map, hlen]⟩

theorem not_prepareWell {ret : Prepared} (h : GoesThrough c w vecBits) (hpairs : privatesendEntryMaxSize < c.pairs w vecBits) :
    ¬ PrepareWell c ret := by
  intro hwell
  obtain ⟨hsuccess, -, houtputs⟩ := prepare_succeeds ret h
  obtain ⟨_, _, -, -, hfits⟩ := hwell hsuccess
  have hlimit := hfits.outputs
  rw [houtputs, (length_take h.bits).1] at hlimit
  omega

/-- A call fails without a coin for each denomination; else it is well where the pairs are nine at most. -/
theorem prepare_iff (c : PrepareCall) (ret : Prepared) :
    PrepareWell c ret ↔ ∀ w vecBits, GoesThrough c w vecBits → c.pairs w vecBits ≤ privatesendEntryMaxSize := by
  constructor
  · intro hwell w vecBits hgoes
    by_contra hpairs
    exact not_prepareWell hgoes (Nat.not_le.1 hpairs) hwell
  · intro hlimit hsuccess
    obtain ⟨w, vecBits, hgoes⟩ := goesThrough_of_succeeds hsuccess
    obtain ⟨-, hin, hout⟩ := prepare_succeeds ret hgoes
    obtain ⟨used, hsub, hused, hinputs, houtputs, -, -⟩ := take_spec (w := w) hgoes.bits
    obtain ⟨hlen, hlen'⟩ := length_take (w := w) hgoes.bits
    refine ⟨w, vecBits, hgoes.wallet, hgoes.bits, ⟨used, hsub, hin.trans hinputs, ?_⟩, fun txout hmem => ?_, ?_, ?_, ?_⟩
    · rw [hout, houtputs]
    · rw [hout] at hmem
      have hvalue : txout.nValue ∈ used.map (·.nValue) := houtputs ▸ List.mem_map_of_mem hmem
      obtain ⟨out, hmem', hsame⟩ := List.mem_map.1 hvalue
      obtain ⟨nBit, hbit, hdenom⟩ := hused out hmem'
      exact ⟨nBit, hbit, hsame.symm.trans hdenom⟩
    · rw [hout]
      exact (take_denominations hgoes.bits).2 ⟨hgoes.positive, hgoes.found⟩
    · rw [hin, hlen']
      exact hlimit w vecBits hgoes
    · rw [hout, hlen]
      exact hlimit w vecBits hgoes

def tenCoins : MixingWallet where
  fLocked := false
  availableCoins := (List.range 10).map fun i => ⟨⟨1, i⟩, if i < 5 then 10000100 else 1000010⟩
  getInputPrivateSendRounds := fun _ => 0
  reservedScript := fun _ => []

def tenCall : PrepareCall := ⟨some tenCoins, 0, 12, 0, 1, fun _ n => if n = 10 then 9 else 0, 0⟩

theorem prepare_ten : ¬ PrepareWell tenCall ⟨"", [], [], ∅⟩ := by
  have hgoes : GoesThrough tenCall tenCoins [2, 3] :=
    ⟨rfl, rfl, rfl, by decide, by decide, fun _ => by decide +kernel, by decide +kernel⟩
  exact not_prepareWell hgoes (by decide +kernel)

end Zumy.PrivateSend
