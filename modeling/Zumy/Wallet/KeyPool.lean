/-
  Zumy.Wallet.KeyPool — the key pool of an unlocked, file-backed wallet
  (`wallet/wallet.cpp`: `TopUpKeyPool`, `NewKeyPool`, `ReserveKeyFromKeyPool`, `KeepKey`,
  `ReturnKey`, `GetKeyFromPool`, `CReserveKey`).

  An index of the pool is in one of the two sets or in the hands of a `CReserveKey`
  object; its record is in the database all the while. A new index is one more than the
  greatest index of the two sets: `TopUpKeyPool` does not see the indices that are out
  on reservation, so it may write its record over theirs.

  A call is `none` where the source throws. `kept` is no field of the source: it lists
  the keys that were handed out for good.
-/
import Zumy.Lib.Run
import Mathlib.Data.Finset.Max

namespace Zumy.Wallet

open Zumy.Lib

structure CKeyPool (K : Type) where
  vchPubKey : K
  fInternal : Bool

/-- `nIndex` is `none` where the source has -1, `vchPubKey` where it has the invalid key. -/
structure CReserveKey (K : Type) where
  nIndex : Option Nat
  vchPubKey : Option K
  fInternal : Bool

structure CWallet (K : Type) where
  setInternalKeyPool : Finset Nat
  setExternalKeyPool : Finset Nat
  /-- The pool records of the wallet's database. -/
  pool : Nat → Option (CKeyPool K)
  /-- What `HaveKey` finds. -/
  keys : Finset K
  /-- The reservations, those that hold no key included. -/
  reserveKeys : Nat → CReserveKey K
  kept : List K

variable {K : Type}

/-- The settings of a run: `GenerateNewKey` is given the keys the wallet has. -/
structure Settings (K : Type) where
  isHDEnabled : Bool
  keypool : Nat
  generateNewKey : Finset K → Bool → K

def greatest (s : Finset Nat) : Nat := if h : s.Nonempty then s.max' h else 0

theorem le_greatest {s : Finset Nat} {i : Nat} (h : i ∈ s) : i ≤ greatest s := by
  rw [greatest, dif_pos ⟨i, h⟩]
  exact s.le_max' i h

theorem greatest_insert {s : Finset Nat} {n : Nat} (h : greatest s ≤ n) : greatest (insert n s) = n := by
  have hmem := Finset.mem_insert_self n s
  rw [greatest, dif_pos ⟨n, hmem⟩]
  refine le_antisymm (Finset.max'_le _ _ _ fun i hi => ?_) (Finset.le_max' _ n hmem)
  rcases Finset.mem_insert.1 hi with rfl | hi
  · exact le_rfl
  · exact (le_greatest hi).trans h

namespace CWallet

def setKeyPool (w : CWallet K) : Bool → Finset Nat
  | true => w.setInternalKeyPool
  | false => w.setExternalKeyPool

def updateSet (w : CWallet K) (fInternal : Bool) (f : Finset Nat → Finset Nat) : CWallet K :=
  if fInternal then { w with setInternalKeyPool := f w.setInternalKeyPool }
  else { w with setExternalKeyPool := f w.setExternalKeyPool }

def writePool (w : CWallet K) (nIndex : Nat) (keypool : CKeyPool K) : CWallet K :=
  { w with pool := Function.update w.pool nIndex (some keypool) }

def erasePool (w : CWallet K) (nIndex : Nat) : CWallet K :=
  { w with pool := Function.update w.pool nIndex none }

def setReserveKey (w : CWallet K) (r : Nat) (o : CReserveKey K) : CWallet K :=
  { w with reserveKeys := Function.update w.reserveKeys r o }

/-- `nEnd` of `TopUpKeyPool`. -/
def nEnd (w : CWallet K) : Nat :=
  let nEnd := if h : w.setInternalKeyPool.Nonempty then w.setInternalKeyPool.max' h + 1 else 1
  if h : w.setExternalKeyPool.Nonempty then max nEnd (w.setExternalKeyPool.max' h + 1) else nEnd

section
variable [DecidableEq K] (cfg : Settings K)

/-- One round of `TopUpKeyPool`'s loop. -/
def addKey (w : CWallet K) (fInternal : Bool) : CWallet K :=
  let nEnd := w.nEnd
  let pubkey := cfg.generateNewKey w.keys fInternal
  ({ w with keys := insert pubkey w.keys }.writePool nEnd ⟨pubkey, fInternal⟩).updateSet fInternal (insert nEnd)

def topUpLoop (missingInternal : Nat) : Nat → CWallet K → CWallet K
  | 0, w => w
  | i + 1, w => topUpLoop missingInternal i (w.addKey cfg (decide (i < missingInternal)))

def nTargetSize (kpSize : Nat) : Nat := if 0 < kpSize then kpSize else cfg.keypool

def missingExternal (w : CWallet K) (kpSize : Nat) : Nat :=
  max (nTargetSize cfg kpSize) 1 - w.setExternalKeyPool.card

def missingInternal (w : CWallet K) (kpSize : Nat) : Nat :=
  if cfg.isHDEnabled then max (nTargetSize cfg kpSize) 1 - w.setInternalKeyPool.card else 0

def topUpKeyPool (w : CWallet K) (kpSize : Nat) : CWallet K :=
  topUpLoop cfg (missingInternal cfg w kpSize) (missingInternal cfg w kpSize + missingExternal cfg w kpSize) w

/-- What `NewKeyPool` does before it tops up. -/
def clearKeyPool (w : CWallet K) : CWallet K :=
  { w with pool := fun i => if i ∈ w.setInternalKeyPool ∨ i ∈ w.setExternalKeyPool then none else w.pool i,
           setInternalKeyPool := ∅, setExternalKeyPool := ∅ }

def newKeyPool (w : CWallet K) : CWallet K := w.clearKeyPool.topUpKeyPool cfg 0

/-- What `ReserveKeyFromKeyPool` does once it has topped up. -/
def takeOldest (w : CWallet K) (fInternal : Bool) : Option (CWallet K × Option (Nat × CKeyPool K)) :=
  if h : (w.setKeyPool fInternal).Nonempty then
    let nIndex := (w.setKeyPool fInternal).min' h
    match w.pool nIndex with
    | none => none
    | some keypool =>
      if keypool.vchPubKey ∉ w.keys then none
      else if keypool.fInternal ≠ fInternal then none
      else some (w.updateSet fInternal (Finset.erase · nIndex), some (nIndex, keypool))
  else some (w, none)

def reserveKeyFromKeyPool (w : CWallet K) (fInternal : Bool) : Option (CWallet K × Option (Nat × CKeyPool K)) :=
  (w.topUpKeyPool cfg 0).takeOldest (fInternal && cfg.isHDEnabled)

def keepKey (w : CWallet K) (nIndex : Nat) : CWallet K := w.erasePool nIndex

def returnKey (w : CWallet K) (nIndex : Nat) (fInternal : Bool) : CWallet K :=
  w.updateSet fInternal (insert nIndex)

def getKeyFromPool (w : CWallet K) (fInternal : Bool) : Option (CWallet K) :=
  (w.reserveKeyFromKeyPool cfg fInternal).map fun
    | (w, none) =>
      let pubkey := cfg.generateNewKey w.keys fInternal
      { w with keys := insert pubkey w.keys, kept := pubkey :: w.kept }
    | (w, some (nIndex, keypool)) => { w.keepKey nIndex with kept := keypool.vchPubKey :: w.kept }

/-- `CReserveKey::GetReservedKey` of the object `r`. -/
def getReservedKey (w : CWallet K) (r : Nat) (fInternal : Bool) : Option (CWallet K) :=
  match (w.reserveKeys r).nIndex with
  | some _ => some w
  | none => (w.reserveKeyFromKeyPool cfg fInternal).map fun
    | (w, none) => w
    | (w, some (nIndex, keypool)) => w.setReserveKey r ⟨some nIndex, some keypool.vchPubKey, keypool.fInternal⟩

/-- `CReserveKey::KeepKey`: the caller goes on with the key it was given. -/
def keepReservedKey (w : CWallet K) (r : Nat) : CWallet K :=
  let emptied : CReserveKey K := ⟨none, none, (w.reserveKeys r).fInternal⟩
  match (w.reserveKeys r).nIndex with
  | none => w.setReserveKey r emptied
  | some nIndex =>
    { (w.keepKey nIndex).setReserveKey r emptied with kept := (w.reserveKeys r).vchPubKey.toList ++ w.kept }

/-- `CReserveKey::ReturnKey`, which the destructor calls too. -/
def returnReservedKey (w : CWallet K) (r : Nat) : CWallet K :=
  let emptied : CReserveKey K := ⟨none, none, (w.reserveKeys r).fInternal⟩
  match (w.reserveKeys r).nIndex with
  | none => w.setReserveKey r emptied
  | some nIndex => (w.returnKey nIndex (w.reserveKeys r).fInternal).setReserveKey r emptied

end

end CWallet

inductive PoolCall where
  | topUpKeyPool (kpSize : Nat)
  | newKeyPool
  | getReservedKey (r : Nat) (fInternal : Bool)
  | keepKey (r : Nat)
  | returnKey (r : Nat)
  | getKeyFromPool (fInternal : Bool)

open CWallet

def poolStep [DecidableEq K] (cfg : Settings K) (w : CWallet K) : PoolCall → Option (CWallet K)
  | .topUpKeyPool kpSize => some (w.topUpKeyPool cfg kpSize)
  | .newKeyPool => some (w.newKeyPool cfg)
  | .getReservedKey r fInternal => w.getReservedKey cfg r fInternal
  | .keepKey r => some (w.keepReservedKey r)
  | .returnKey r => some (w.returnReservedKey r)
  | .getKeyFromPool fInternal => w.getKeyFromPool cfg fInternal

/-! ## The order of the pool -/

structure PoolSound (w : CWallet K) : Prop where
  setsApart : Disjoint w.setInternalKeyPool w.setExternalKeyPool
  reservedApart : ∀ r i fInternal, (w.reserveKeys r).nIndex = some i → i ∉ w.setKeyPool fInternal
  reservedOnce : ∀ r r' i, (w.reserveKeys r).nIndex = some i → (w.reserveKeys r').nIndex = some i → r = r'
  record : ∀ fInternal, ∀ i ∈ w.setKeyPool fInternal,
    ∃ keypool, w.pool i = some keypool ∧ keypool.fInternal = fInternal ∧ keypool.vchPubKey ∈ w.keys
  heldOnce : ∀ r r' k, (w.reserveKeys r).nIndex.isSome → (w.reserveKeys r').nIndex.isSome →
    (w.reserveKeys r).vchPubKey = some k → (w.reserveKeys r').vchPubKey = some k → r = r'
  keptOnce : w.kept.Nodup
  keptNotPooled : ∀ fInternal, ∀ i ∈ w.setKeyPool fInternal, ∀ keypool, w.pool i = some keypool → keypool.vchPubKey ∉ w.kept
  keptNotHeld : ∀ r k, (w.reserveKeys r).nIndex.isSome → (w.reserveKeys r).vchPubKey = some k → k ∉ w.kept

/-- A reservation's record stays in the database, and no two records have one key. -/
structure PoolInv (w : CWallet K) : Prop where
  setsApart : ∀ i fInternal fInternal', i ∈ w.setKeyPool fInternal → i ∈ w.setKeyPool fInternal' → fInternal = fInternal'
  reservedApart : ∀ r i fInternal, (w.reserveKeys r).nIndex = some i → i ∉ w.setKeyPool fInternal
  reservedOnce : ∀ r r' i, (w.reserveKeys r).nIndex = some i → (w.reserveKeys r').nIndex = some i → r = r'
  record : ∀ fInternal, ∀ i ∈ w.setKeyPool fInternal, ∃ keypool, w.pool i = some keypool ∧ keypool.fInternal = fInternal
  reservedRecord : ∀ r i, (w.reserveKeys r).nIndex = some i →
    ∃ k, (w.reserveKeys r).vchPubKey = some k ∧ w.pool i = some ⟨k, (w.reserveKeys r).fInternal⟩
  owned : ∀ i keypool, w.pool i = some keypool → keypool.vchPubKey ∈ w.keys
  oneRecord : ∀ i j a b, w.pool i = some a → w.pool j = some b → a.vchPubKey = b.vchPubKey → i = j
  keptOwned : ∀ k ∈ w.kept, k ∈ w.keys
  keptOnce : w.kept.Nodup
  keptNoRecord : ∀ i keypool, w.pool i = some keypool → keypool.vchPubKey ∉ w.kept

theorem PoolInv.sound {w : CWallet K} (hi : PoolInv w) : PoolSound w where
  setsApart := Finset.disjoint_left.2 fun i hint hext => nomatch hi.setsApart i true false hint hext
  reservedApart := hi.reservedApart
  reservedOnce := hi.reservedOnce
  record := fun fInternal i h => by
    obtain ⟨keypool, hp, hf⟩ := hi.record fInternal i h
    exact ⟨keypool, hp, hf, hi.owned i keypool hp⟩
  heldOnce := fun r r' k hr hr' hk hk' => by
    obtain ⟨i, hr⟩ := Option.isSome_iff_exists.1 hr
    obtain ⟨j, hr'⟩ := Option.isSome_iff_exists.1 hr'
    obtain ⟨a, ha, hpi⟩ := hi.reservedRecord r i hr
    obtain ⟨b, hb, hpj⟩ := hi.reservedRecord r' j hr'
    have hab : a = b := by
      rw [hk] at ha
      rw [hk'] at hb
      exact (Option.some.inj ha).symm.trans (Option.some.inj hb)
    have hij := hi.oneRecord i j _ _ hpi hpj hab
    exact hi.reservedOnce r r' i hr (hij ▸ hr')
  keptOnce := hi.keptOnce
  keptNotPooled := fun _ i _ keypool hp => hi.keptNoRecord i keypool hp
  keptNotHeld := fun r k hr hk => by
    obtain ⟨i, hr⟩ := Option.isSome_iff_exists.1 hr
    obtain ⟨a, ha, hp⟩ := hi.reservedRecord r i hr
    cases hk.symm.trans ha
    exact hi.keptNoRecord i _ hp

/-! ## What the parts of a call change -/

namespace CWallet

section
variable (w : CWallet K) (b : Bool) (f : Finset Nat → Finset Nat)

theorem setKeyPool_updateSet (b' : Bool) :
    (w.updateSet b f).setKeyPool b' = if b' = b then f (w.setKeyPool b') else w.setKeyPool b' := by
  cases b <;> cases b' <;> rfl

@[simp] theorem pool_updateSet : (w.updateSet b f).pool = w.pool := by cases b <;> rfl

@[simp] theorem keys_updateSet : (w.updateSet b f).keys = w.keys := by cases b <;> rfl

@[simp] theorem reserveKeys_updateSet : (w.updateSet b f).reserveKeys = w.reserveKeys := by cases b <;> rfl

@[simp] theorem kept_updateSet : (w.updateSet b f).kept = w.kept := by cases b <;> rfl

@[simp] theorem setKeyPool_clearKeyPool : w.clearKeyPool.setKeyPool b = ∅ := by cases b <;> rfl

theorem mem_setKeyPool_iff (i : Nat) : (∃ b, i ∈ w.setKeyPool b) ↔ i ∈ w.setInternalKeyPool ∨ i ∈ w.setExternalKeyPool := by
  simp [setKeyPool, or_comm]

def greatestIndex : Nat := max (greatest w.setInternalKeyPool) (greatest w.setExternalKeyPool)

theorem nEnd_eq : w.nEnd = w.greatestIndex + 1 := by
  unfold nEnd greatestIndex greatest
  by_cases hint : w.setInternalKeyPool.Nonempty <;> by_cases hext : w.setExternalKeyPool.Nonempty
  all_goals simp only [hint, hext, dif_pos, dif_neg, not_false_eq_true]
  all_goals omega

theorem le_greatestIndex {w : CWallet K} {b : Bool} {i : Nat} (h : i ∈ w.setKeyPool b) : i ≤ w.greatestIndex := by
  cases b
  · exact (le_greatest h).trans (le_max_right _ _)
  · exact (le_greatest h).trans (le_max_left _ _)

end

end CWallet

def Loose (w : CWallet K) (i : Nat) : Prop := (∀ b, i ∉ w.setKeyPool b) ∧ ∀ r, (w.reserveKeys r).nIndex ≠ some i

section
variable {w : CWallet K} {i : Nat} {b : Bool} {keypool : CKeyPool K}

theorem PoolInv.take (hi : PoolInv w) (h : i ∈ w.setKeyPool b) :
    PoolInv (w.updateSet b (Finset.erase · i)) ∧ Loose (w.updateSet b (Finset.erase · i)) i := by
  have hsub : ∀ b' j, j ∈ (w.updateSet b (Finset.erase · i)).setKeyPool b' → j ∈ w.setKeyPool b' := by
    intro b' j hj
    rw [setKeyPool_updateSet] at hj
    split at hj
    · exact Finset.mem_of_mem_erase hj
    · exact hj
  refine ⟨?_, ?_, ?_⟩
  · refine ⟨?_, ?_, ?_, ?_, ?_, ?_, ?_, ?_, ?_, ?_⟩
    · exact fun j a a' ha ha' => hi.setsApart j a a' (hsub a j ha) (hsub a' j ha')
    · intro r j a hr hj
      rw [reserveKeys_updateSet] at hr
      exact hi.reservedApart r j a hr (hsub a j hj)
    · simpa using hi.reservedOnce
    · simpa using fun a j hj => hi.record a j (hsub a j hj)
    · simpa using hi.reservedRecord
    · simpa using hi.owned
    · simpa using hi.oneRecord
    · simpa using hi.keptOwned
    · simpa using hi.keptOnce
    · simpa using hi.keptNoRecord
  · intro b' hb'
    have hbb := hi.setsApart i b' b (hsub b' i hb') h
    rw [setKeyPool_updateSet, if_pos hbb] at hb'
    exact Finset.notMem_erase _ _ hb'
  · intro r hr
    rw [reserveKeys_updateSet] at hr
    exact hi.reservedApart r i b hr h

theorem PoolInv.release (hi : PoolInv w) (r : Nat) (b : Bool) : PoolInv (w.setReserveKey r ⟨none, none, b⟩) := by
  have hof : ∀ r' j, ((w.setReserveKey r ⟨none, none, b⟩).reserveKeys r').nIndex = some j →
      (w.setReserveKey r ⟨none, none, b⟩).reserveKeys r' = w.reserveKeys r' := by
    intro r' j h
    rcases eq_or_ne r' r with rfl | hne
    · simp [setReserveKey] at h
    · simp [setReserveKey, hne]
  refine ⟨hi.setsApart, ?_, ?_, hi.record, ?_, hi.owned, hi.oneRecord, hi.keptOwned, hi.keptOnce, hi.keptNoRecord⟩
  · exact fun r' j a h => hi.reservedApart r' j a (hof r' j h ▸ h)
  · exact fun r₁ r₂ j h₁ h₂ => hi.reservedOnce r₁ r₂ j (hof r₁ j h₁ ▸ h₁) (hof r₂ j h₂ ▸ h₂)
  · intro r' j h
    have hsame := hof r' j h
    rw [hsame] at h ⊢
    exact hi.reservedRecord r' j h

theorem PoolInv.release_loose {r : Nat} (hi : PoolInv w) (hr : (w.reserveKeys r).nIndex = some i) (b : Bool) :
    Loose (w.setReserveKey r ⟨none, none, b⟩) i := by
  refine ⟨fun a => hi.reservedApart r i a hr, fun r' h => ?_⟩
  rcases eq_or_ne r' r with rfl | hne
  · simp [setReserveKey] at h
  · simp only [setReserveKey, Function.update_of_ne hne] at h
    exact hne (hi.reservedOnce r' r i h hr)

theorem PoolInv.hold (hi : PoolInv w) (hl : Loose w i) (hp : w.pool i = some keypool) (r : Nat) :
    PoolInv (w.setReserveKey r ⟨some i, some keypool.vchPubKey, keypool.fInternal⟩) := by
  have hof : ∀ r', r' ≠ r →
      ((w.setReserveKey r ⟨some i, some keypool.vchPubKey, keypool.fInternal⟩).reserveKeys r') = w.reserveKeys r' := by
    intro r' h
    simp [setReserveKey, h]
  have hself : (w.setReserveKey r ⟨some i, some keypool.vchPubKey, keypool.fInternal⟩).reserveKeys r =
      ⟨some i, some keypool.vchPubKey, keypool.fInternal⟩ := by
    simp [setReserveKey]
  refine ⟨hi.setsApart, ?_, ?_, hi.record, ?_, hi.owned, hi.oneRecord, hi.keptOwned, hi.keptOnce, hi.keptNoRecord⟩
  · intro r' j a h
    rcases eq_or_ne r' r with rfl | hne
    · rw [hself] at h
      cases h
      exact hl.1 a
    · exact hi.reservedApart r' j a (hof r' hne ▸ h)
  · intro r₁ r₂ j h₁ h₂
    by_cases hne₁ : r₁ = r <;> by_cases hne₂ : r₂ = r
    · exact hne₁.trans hne₂.symm
    · rw [hne₁, hself] at h₁
      cases h₁
      exact absurd (hof r₂ hne₂ ▸ h₂) (hl.2 r₂)
    · rw [hne₂, hself] at h₂
      cases h₂
      exact absurd (hof r₁ hne₁ ▸ h₁) (hl.2 r₁)
    · exact hi.reservedOnce r₁ r₂ j (hof r₁ hne₁ ▸ h₁) (hof r₂ hne₂ ▸ h₂)
  · intro r' j h
    rcases eq_or_ne r' r with rfl | hne
    · rw [hself] at h ⊢
      cases h
      exact ⟨keypool.vchPubKey, rfl, hp⟩
    · rw [hof r' hne] at h ⊢
      exact hi.reservedRecord r' j h

theorem PoolInv.return (hi : PoolInv w) (hl : Loose w i) (hp : w.pool i = some keypool) :
    PoolInv (w.returnKey i keypool.fInternal) := by
  have hmem : ∀ a j, j ∈ (w.returnKey i keypool.fInternal).setKeyPool a →
      j ∈ w.setKeyPool a ∨ (j = i ∧ a = keypool.fInternal) := by
    intro a j hj
    rw [returnKey, setKeyPool_updateSet] at hj
    split at hj
    · rename_i ha
      rcases Finset.mem_insert.1 hj with rfl | hj
      · exact .inr ⟨rfl, ha⟩
      · exact .inl hj
    · exact .inl hj
  refine ⟨?_, ?_, ?_, ?_, ?_, ?_, ?_, ?_, ?_, ?_⟩
  · intro j a a' ha ha'
    rcases hmem a j ha with ha | ⟨rfl, rfl⟩ <;> rcases hmem a' j ha' with ha' | ⟨hj, rfl⟩
    · exact hi.setsApart j a a' ha ha'
    · exact absurd (hj ▸ ha) (hl.1 a)
    · exact absurd ha' (hl.1 a')
    · rfl
  · intro r j a hr hj
    simp only [returnKey, reserveKeys_updateSet] at hr
    rcases hmem a j hj with hj | ⟨rfl, rfl⟩
    · exact hi.reservedApart r j a hr hj
    · exact hl.2 r hr
  · simpa [returnKey] using hi.reservedOnce
  · intro a j hj
    simp only [returnKey, pool_updateSet]
    rcases hmem a j hj with hj | ⟨rfl, rfl⟩
    · exact hi.record a j hj
    · exact ⟨keypool, hp, rfl⟩
  · simpa [returnKey] using hi.reservedRecord
  · simpa [returnKey] using hi.owned
  · simpa [returnKey] using hi.oneRecord
  · simpa [returnKey] using hi.keptOwned
  · simpa [returnKey] using hi.keptOnce
  · simpa [returnKey] using hi.keptNoRecord

theorem PoolInv.keep (hi : PoolInv w) (hl : Loose w i) (hp : w.pool i = some keypool) :
    PoolInv { w.keepKey i with kept := keypool.vchPubKey :: w.kept } := by
  have hne : ∀ j a, (w.keepKey i).pool j = some a → j ≠ i ∧ w.pool j = some a := by
    intro j a h
    rcases eq_or_ne j i with rfl | hji
    · simp [keepKey, erasePool] at h
    · exact ⟨hji, by simpa [keepKey, erasePool, hji] using h⟩
  have hpool : ∀ j, j ≠ i → (w.keepKey i).pool j = w.pool j := by
    intro j hji
    simp [keepKey, erasePool, hji]
  refine ⟨hi.setsApart, hi.reservedApart, hi.reservedOnce, ?_, ?_, ?_, ?_, ?_, ?_, ?_⟩
  · intro a j hj
    have hji : j ≠ i := fun h => hl.1 a (h ▸ hj)
    obtain ⟨k, hk, hf⟩ := hi.record a j hj
    exact ⟨k, (hpool j hji).trans hk, hf⟩
  · intro r j hr
    have hji : j ≠ i := fun h => hl.2 r (h ▸ hr)
    obtain ⟨k, hk, hpk⟩ := hi.reservedRecord r j hr
    exact ⟨k, hk, (hpool j hji).trans hpk⟩
  · exact fun j a ha => hi.owned j a (hne j a ha).2
  · exact fun j j' a a' ha ha' => hi.oneRecord j j' a a' (hne j a ha).2 (hne j' a' ha').2
  · intro k hk
    rcases List.mem_cons.1 hk with rfl | hk
    · exact hi.owned i keypool hp
    · exact hi.keptOwned k hk
  · exact List.nodup_cons.2 ⟨hi.keptNoRecord i keypool hp, hi.keptOnce⟩
  · intro j a ha hk
    obtain ⟨hji, ha⟩ := hne j a ha
    rcases List.mem_cons.1 hk with hk | hk
    · exact hji (hi.oneRecord j i a keypool ha hp hk)
    · exact hi.keptNoRecord j a ha hk

theorem PoolInv.addKeys (hi : PoolInv w) {keys : Finset K} (h : w.keys ⊆ keys) : PoolInv { w with keys := keys } :=
  ⟨hi.setsApart, hi.reservedApart, hi.reservedOnce, hi.record, hi.reservedRecord,
    fun i a ha => h (hi.owned i a ha), hi.oneRecord, fun k hk => h (hi.keptOwned k hk), hi.keptOnce, hi.keptNoRecord⟩

theorem PoolInv.write (hi : PoolInv w) (hl : Loose w i) (hkeys : keypool.vchPubKey ∈ w.keys)
    (hnew : ∀ j a, w.pool j = some a → a.vchPubKey ≠ keypool.vchPubKey) (hkept : keypool.vchPubKey ∉ w.kept) :
    PoolInv (w.writePool i keypool) := by
  have hpool : ∀ j, j ≠ i → (w.writePool i keypool).pool j = w.pool j := by
    intro j hji
    simp [writePool, hji]
  have hof : ∀ j a, (w.writePool i keypool).pool j = some a → (j = i ∧ a = keypool) ∨ (j ≠ i ∧ w.pool j = some a) := by
    intro j a h
    by_cases hji : j = i
    · subst hji
      simp only [writePool, Function.update_self, Option.some.injEq] at h
      exact .inl ⟨rfl, h.symm⟩
    · exact .inr ⟨hji, hpool j hji ▸ h⟩
  refine ⟨hi.setsApart, hi.reservedApart, hi.reservedOnce, ?_, ?_, ?_, ?_, hi.keptOwned, hi.keptOnce, ?_⟩
  · intro a j hj
    have hji : j ≠ i := fun h => hl.1 a (h ▸ hj)
    rw [hpool j hji]
    exact hi.record a j hj
  · intro r j hr
    have hji : j ≠ i := fun h => hl.2 r (h ▸ hr)
    rw [hpool j hji]
    exact hi.reservedRecord r j hr
  · intro j a ha
    rcases hof j a ha with ⟨rfl, rfl⟩ | ⟨_, ha⟩
    · exact hkeys
    · exact hi.owned j a ha
  · intro j j' a a' ha ha' heq
    rcases hof j a ha with ⟨hj, hk⟩ | ⟨_, hold⟩ <;> rcases hof j' a' ha' with ⟨hj', hk'⟩ | ⟨_, hold'⟩
    · exact hj.trans hj'.symm
    · exact absurd (heq.symm.trans (congrArg _ hk)) (hnew j' a' hold')
    · exact absurd (heq.trans (congrArg _ hk')) (hnew j a hold)
    · exact hi.oneRecord j j' a a' hold hold' heq
  · intro j a ha
    rcases hof j a ha with ⟨rfl, rfl⟩ | ⟨_, ha⟩
    · exact hkept
    · exact hi.keptNoRecord j a ha

theorem PoolInv.clear (hi : PoolInv w) : PoolInv w.clearKeyPool := by
  have hof : ∀ j a, w.clearKeyPool.pool j = some a → w.pool j = some a := by
    intro j a h
    simp only [clearKeyPool] at h
    split at h
    · cases h
    · exact h
  refine ⟨?_, ?_, hi.reservedOnce, ?_, ?_, ?_, ?_, hi.keptOwned, hi.keptOnce, ?_⟩
  · intro j a a' ha
    simp at ha
  · intro r j a _
    simp
  · intro a j hj
    simp at hj
  · intro r j hr
    have hout : ¬ (j ∈ w.setInternalKeyPool ∨ j ∈ w.setExternalKeyPool) := by
      rw [← mem_setKeyPool_iff]
      rintro ⟨a, ha⟩
      exact hi.reservedApart r j a hr ha
    simp only [clearKeyPool, if_neg hout]
    exact hi.reservedRecord r j hr
  · exact fun j a ha => hi.owned j a (hof j a ha)
  · exact fun j j' a a' ha ha' => hi.oneRecord j j' a a' (hof j a ha) (hof j' a' ha')
  · exact fun j a ha => hi.keptNoRecord j a (hof j a ha)

end

/-! ## The calls -/

/-- No reservation holds one of the `n` indices above the greatest of the two sets. -/
def ReservedOutside (w : CWallet K) (n : Nat) : Prop :=
  ∀ r i, (w.reserveKeys r).nIndex = some i → i ≤ w.greatestIndex ∨ w.greatestIndex + n < i

section
variable [DecidableEq K] {cfg : Settings K} {w w' : CWallet K}

/-- How many keys `TopUpKeyPool` adds. -/
def missing (cfg : Settings K) (w : CWallet K) (kpSize : Nat) : Nat :=
  w.missingInternal cfg kpSize + w.missingExternal cfg kpSize

def PoolClear (cfg : Settings K) (w : CWallet K) : PoolCall → Prop
  | .topUpKeyPool kpSize => ReservedOutside w (missing cfg w kpSize)
  | .newKeyPool => ReservedOutside w.clearKeyPool (missing cfg w.clearKeyPool 0)
  | .getReservedKey r _ => (w.reserveKeys r).nIndex = none → ReservedOutside w (missing cfg w 0)
  | .keepKey _ => True
  | .returnKey _ => True
  | .getKeyFromPool _ => ReservedOutside w (missing cfg w 0)

variable (hnew : ∀ keys fInternal, cfg.generateNewKey keys fInternal ∉ keys)
include hnew

theorem PoolInv.addKey (hi : PoolInv w) (hout : ReservedOutside w 1) (b : Bool) : PoolInv (w.addKey cfg b) := by
  have hloose : Loose w w.nEnd := by
    rw [nEnd_eq]
    refine ⟨fun a ha => ?_, fun r hr => ?_⟩
    · have := le_greatestIndex ha
      omega
    · have := hout r _ hr
      omega
  let pubkey := cfg.generateNewKey w.keys b
  have hfresh : pubkey ∉ w.keys := hnew w.keys b
  have hkeys : PoolInv { w with keys := insert pubkey w.keys } := hi.addKeys (Finset.subset_insert _ _)
  have hrec : PoolInv ({ w with keys := insert pubkey w.keys }.writePool w.nEnd ⟨pubkey, b⟩) :=
    hkeys.write hloose (Finset.mem_insert_self _ _) (fun j a ha h => hfresh (h.subst (hi.owned j a ha)))
      fun h => hfresh (hi.keptOwned _ h)
  have hself : ({ w with keys := insert pubkey w.keys }.writePool w.nEnd ⟨pubkey, b⟩).pool w.nEnd = some ⟨pubkey, b⟩ := by
    simp [writePool]
  exact hrec.return hloose hself

omit hnew in
theorem greatestIndex_addKey (b : Bool) : (w.addKey cfg b).greatestIndex = w.greatestIndex + 1 := by
  have hle := w.nEnd_eq
  cases b with
  | false =>
    show max (greatest w.setInternalKeyPool) (greatest (insert w.nEnd w.setExternalKeyPool)) = w.greatestIndex + 1
    rw [greatest_insert (by rw [hle, greatestIndex]; omega), hle, greatestIndex]
    omega
  | true =>
    show max (greatest (insert w.nEnd w.setInternalKeyPool)) (greatest w.setExternalKeyPool) = w.greatestIndex + 1
    rw [greatest_insert (by rw [hle, greatestIndex]; omega), hle, greatestIndex]
    omega

omit hnew in
@[simp] theorem reserveKeys_addKey (b : Bool) : (w.addKey cfg b).reserveKeys = w.reserveKeys := by
  simp [CWallet.addKey, writePool]

/-- Each round takes the next index above, so the rounds need as many free ones as there are of them. -/
theorem PoolInv.topUpLoop (hi : PoolInv w) (missingInternal n : Nat) (hout : ReservedOutside w n) :
    PoolInv (w.topUpLoop cfg missingInternal n) := by
  induction n generalizing w with
  | zero => exact hi
  | succ n ih =>
    refine ih (hi.addKey hnew ?_ _) ?_
    · intro r i hr
      have := hout r i hr
      omega
    · intro r i hr
      rw [reserveKeys_addKey] at hr
      rw [greatestIndex_addKey]
      have := hout r i hr
      omega

theorem PoolInv.topUpKeyPool (hi : PoolInv w) (kpSize : Nat) (hout : ReservedOutside w (missing cfg w kpSize)) :
    PoolInv (w.topUpKeyPool cfg kpSize) :=
  hi.topUpLoop hnew _ _ hout

omit hnew in
theorem reserveKeys_topUpLoop (missingInternal n : Nat) : (w.topUpLoop cfg missingInternal n).reserveKeys = w.reserveKeys := by
  induction n generalizing w with
  | zero => rfl
  | succ n ih => exact ih.trans (reserveKeys_addKey _)

omit hnew [DecidableEq K] in
theorem PoolInv.takeOldest [DecidableEq K] (hi : PoolInv w) (b : Bool) :
    w.takeOldest b = some (w, none) ∨
      ∃ i keypool, w.takeOldest b = some (w.updateSet b (Finset.erase · i), some (i, keypool)) ∧
        i ∈ w.setKeyPool b ∧ w.pool i = some keypool := by
  by_cases hne : (w.setKeyPool b).Nonempty
  · right
    have hmem := Finset.min'_mem _ hne
    obtain ⟨keypool, hp, hf⟩ := hi.record b _ hmem
    refine ⟨(w.setKeyPool b).min' hne, keypool, ?_, hmem, hp⟩
    have hown := hi.owned _ keypool hp
    simp only [CWallet.takeOldest, dif_pos hne, hp, not_not.2 hown, hf, if_false, ne_eq, not_true]
  · left
    exact dif_neg hne

/-- What a reservation leaves behind: nothing, or a loose index with its record. -/
theorem PoolInv.reserve (hi : PoolInv w) (b : Bool) (hout : ReservedOutside w (missing cfg w 0)) :
    ∃ w', PoolInv w' ∧ w'.reserveKeys = w.reserveKeys ∧
      (w.reserveKeyFromKeyPool cfg b = some (w', none) ∨
        ∃ i keypool, w.reserveKeyFromKeyPool cfg b = some (w', some (i, keypool)) ∧ Loose w' i ∧ w'.pool i = some keypool) := by
  have htop := hi.topUpKeyPool hnew 0 hout
  have hres : (w.topUpKeyPool cfg 0).reserveKeys = w.reserveKeys := reserveKeys_topUpLoop _ _
  rcases htop.takeOldest (b && cfg.isHDEnabled) with h | ⟨i, keypool, h, hmem, hp⟩
  · exact ⟨_, htop, hres, .inl h⟩
  · obtain ⟨htaken, hloose⟩ := htop.take hmem
    refine ⟨_, htaken, ?_, .inr ⟨i, keypool, h, hloose, ?_⟩⟩
    · rw [reserveKeys_updateSet, hres]
    · rw [pool_updateSet, hp]

theorem PoolInv.getReservedKey (hi : PoolInv w) (r : Nat) (b : Bool)
    (hout : (w.reserveKeys r).nIndex = none → ReservedOutside w (missing cfg w 0)) :
    ∃ w', w.getReservedKey cfg r b = some w' ∧ PoolInv w' := by
  unfold CWallet.getReservedKey
  cases hr : (w.reserveKeys r).nIndex with
  | some i => exact ⟨w, rfl, hi⟩
  | none =>
    obtain ⟨w₁, hi₁, -, h | ⟨i, keypool, h, hloose, hp⟩⟩ := hi.reserve hnew b (hout hr)
    · exact ⟨w₁, by rw [h]; rfl, hi₁⟩
    · exact ⟨_, by rw [h]; rfl, hi₁.hold hloose hp r⟩

theorem PoolInv.getKeyFromPool (hi : PoolInv w) (b : Bool) (hout : ReservedOutside w (missing cfg w 0)) :
    ∃ w', w.getKeyFromPool cfg b = some w' ∧ PoolInv w' := by
  unfold CWallet.getKeyFromPool
  obtain ⟨w₁, hi₁, -, h | ⟨i, keypool, h, hloose, hp⟩⟩ := hi.reserve hnew b hout
  · refine ⟨_, by rw [h]; rfl, ?_⟩
    have hfresh := hnew w₁.keys b
    have hadd := hi₁.addKeys (Finset.subset_insert (cfg.generateNewKey w₁.keys b) w₁.keys)
    refine ⟨hadd.setsApart, hadd.reservedApart, hadd.reservedOnce, hadd.record, hadd.reservedRecord, hadd.owned,
      hadd.oneRecord, ?_, ?_, ?_⟩
    · intro k hk
      rcases List.mem_cons.1 hk with rfl | hk
      · exact Finset.mem_insert_self _ _
      · exact hadd.keptOwned k hk
    · exact List.nodup_cons.2 ⟨fun hk => hfresh (hi₁.keptOwned _ hk), hi₁.keptOnce⟩
    · intro i a ha hk
      rcases List.mem_cons.1 hk with hk | hk
      · exact hfresh (hk ▸ hi₁.owned i a ha)
      · exact hi₁.keptNoRecord i a ha hk
  · exact ⟨_, by rw [h]; rfl, hi₁.keep hloose hp⟩

omit hnew [DecidableEq K] in
theorem PoolInv.keepReservedKey (hi : PoolInv w) (r : Nat) : PoolInv (w.keepReservedKey r) := by
  cases hr : (w.reserveKeys r).nIndex with
  | none =>
    simp only [CWallet.keepReservedKey, hr]
    exact hi.release r _
  | some i =>
    obtain ⟨k, hk, hp⟩ := hi.reservedRecord r i hr
    simp only [CWallet.keepReservedKey, hr, hk]
    exact (hi.release r (w.reserveKeys r).fInternal).keep (hi.release_loose hr _) hp

omit hnew [DecidableEq K] in
theorem PoolInv.returnReservedKey (hi : PoolInv w) (r : Nat) : PoolInv (w.returnReservedKey r) := by
  cases hr : (w.reserveKeys r).nIndex with
  | none =>
    simp only [CWallet.returnReservedKey, hr]
    exact hi.release r _
  | some i =>
    simp only [CWallet.returnReservedKey, hr]
    obtain ⟨k, -, hp⟩ := hi.reservedRecord r i hr
    have hback := (hi.release r (w.reserveKeys r).fInternal).return (hi.release_loose hr _) hp
    cases hf : (w.reserveKeys r).fInternal <;> simpa [hf, returnKey, updateSet, setReserveKey] using hback

theorem step_inv (hi : PoolInv w) (e : PoolCall) (hclear : PoolClear cfg w e) :
    ∃ w', poolStep cfg w e = some w' ∧ PoolInv w' := by
  cases e with
  | topUpKeyPool kpSize => exact ⟨_, rfl, hi.topUpKeyPool hnew kpSize hclear⟩
  | newKeyPool => exact ⟨_, rfl, hi.clear.topUpKeyPool hnew 0 hclear⟩
  | getReservedKey r b => exact hi.getReservedKey hnew r b hclear
  | keepKey r => exact ⟨_, rfl, hi.keepReservedKey r⟩
  | returnKey r => exact ⟨_, rfl, hi.returnReservedKey r⟩
  | getKeyFromPool b => exact hi.getKeyFromPool hnew b hclear

/-- The run lemma: while new records are written at none of the reserved indices, no call throws
    and the pool stays in order. -/
theorem pool_sound_of_clear (hi : PoolInv w) (es : List PoolCall) (hm : Meets (poolStep cfg) (PoolClear cfg) w es) :
    ∃ w', run (poolStep cfg) w es = some w' ∧ PoolSound w' := by
  have hkeeps : ∀ w e w', PoolInv w → PoolClear cfg w e → poolStep cfg w e = some w' → PoolInv w' := by
    intro w e w' hi hclear hstep
    obtain ⟨w₁, h₁, hi₁⟩ := step_inv hnew hi e hclear
    cases h₁.symm.trans hstep
    exact hi₁
  have hdef : (run (poolStep cfg) w es).isSome := by
    refine run_isSome_of_meets PoolInv hkeeps ?_ hm hi
    intro w e hi hclear
    obtain ⟨w₁, h₁, -⟩ := step_inv hnew hi e hclear
    exact Option.isSome_iff_exists.2 ⟨w₁, h₁⟩
  obtain ⟨w', hw'⟩ := Option.isSome_iff_exists.1 hdef
  exact ⟨w', hw', (run_inv_of_meets PoolInv hkeeps hm hi hw').sound⟩

end

def newWallet : CWallet Nat := ⟨∅, ∅, fun _ => none, ∅, fun _ => ⟨none, none, false⟩, []⟩

def numbered (isHDEnabled : Bool) (keypool : Nat) : Settings Nat := ⟨isHDEnabled, keypool, fun keys _ => greatest keys + 1⟩

theorem numbered_new (isHDEnabled : Bool) (keypool : Nat) (keys : Finset Nat) (b : Bool) :
    (numbered isHDEnabled keypool).generateNewKey keys b ∉ keys := by
  intro h
  have hle : greatest keys + 1 ≤ greatest keys := le_greatest h
  omega

theorem newWallet_inv : PoolInv newWallet where
  setsApart := fun i b _ h => by cases b <;> exact absurd h (Finset.notMem_empty i)
  reservedApart := fun _ _ _ h => nomatch h
  reservedOnce := fun _ _ _ h => nomatch h
  record := fun b i h => by cases b <;> exact absurd h (Finset.notMem_empty i)
  reservedRecord := fun _ _ h => nomatch h
  owned := fun _ _ h => nomatch h
  oneRecord := fun _ _ _ _ h => nomatch h
  keptOwned := fun _ h => nomatch h
  keptOnce := List.nodup_nil
  keptNoRecord := fun _ _ h => nomatch h

theorem pool_sound_of_clear_sample :
    ∃ w, run (poolStep (numbered true 2)) newWallet [.getReservedKey 0 true, .getReservedKey 1 true] = some w ∧ PoolSound w := by
  refine pool_sound_of_clear (numbered_new true 2) newWallet_inv _ ⟨fun _ _ _ h => (nomatch h), fun w hw => ?_⟩
  cases hw
  refine ⟨fun _ r i h => .inl ?_, fun _ _ => trivial⟩
  by_cases hr : r = 0
  · subst hr
    cases h
    decide
  · exact absurd h (by simp [setReserveKey, Function.update_of_ne hr, reserveKeys_topUpLoop, CWallet.topUpKeyPool, newWallet])

/-- With one key in the pool both reservations get the index 1: the first returned, a third is given
    the key the second holds; the first kept, the return of the second leaves an index without a record. -/
theorem reserved_index_is_reused :
    (∃ w, run (poolStep (numbered false 1)) newWallet [.getReservedKey 0 false, .getReservedKey 1 false] = some w ∧
      (w.reserveKeys 0).nIndex = some 1 ∧ (w.reserveKeys 1).nIndex = some 1 ∧ ¬ PoolSound w) ∧
    (∃ w, run (poolStep (numbered false 1)) newWallet
        [.getReservedKey 0 false, .getReservedKey 1 false, .returnKey 0, .getReservedKey 2 false] = some w ∧
      w.reserveKeys 1 = ⟨some 1, some 2, false⟩ ∧ w.reserveKeys 2 = ⟨some 1, some 2, false⟩) ∧
    run (poolStep (numbered false 1)) newWallet
      [.getReservedKey 0 false, .getReservedKey 1 false, .keepKey 0, .returnKey 1, .getReservedKey 2 false] = none := by
  refine ⟨⟨_, rfl, rfl, rfl, fun h => ?_⟩, ⟨_, rfl, rfl, rfl⟩, rfl⟩
  have hsame : 0 = 1 := h.reservedOnce 0 1 1 rfl rfl
  omega

end Zumy.Wallet
