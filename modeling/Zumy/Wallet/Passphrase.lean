/-
  Zumy.Wallet.Passphrase — what `CWallet::Unlock` and `ChangeWalletPassphrase` leave of the
  lock state (`wallet/wallet.cpp`, `wallet/crypter.cpp`, `wallet/crypter.h`).

  An encrypted wallet is locked, unlocked for mixing only, or fully unlocked, by the master
  key in memory and the flag `fOnlyMixingAllowed` together. KeePass is not in use. Keys and
  ciphers are those of the key store; the bytes OpenSSL derives from a passphrase, the
  rounds `ChangeWalletPassphrase` estimates from its timings and what `TopUpKeyPool` does
  are parameters. A call is `none` where the assertion of the key store's `Unlock` fails.

  - `unlock_eq`: the key store's `Unlock`, by what the key opens.
  - `unlockAny_spec`: the keys a loop tries, up to the first that ends it.
-/
import Zumy.Wallet.HDKeys

namespace Zumy.HDWallet

open Zumy.Lib

def walletCryptoSaltSize : Nat := 8

def minDeriveIterations : Nat := 25000

structure MasterKey extends CMasterKey where
  nDerivationMethod : Nat

structure KeyWallet extends CCryptoKeyStore where
  mapMasterKeys : List MasterKey

/-- The three combinations `IsLocked` tells apart. -/
inductive LockState where
  | locked
  | mixingOnly
  | unlocked
  deriving DecidableEq

namespace CCryptoKeyStore

def lockState (s : CCryptoKeyStore) : LockState :=
  if s.isLocked true then .locked else if s.isLocked false then .mixingOnly else .unlocked

end CCryptoKeyStore

section
variable (bytesToKey : Bytes → Bytes → Nat → Bytes × Bytes)

def setKeyFromPassphrase (strKeyData chSalt : Bytes) (nRounds nDerivationMethod : Nat) : Option (Bytes × Bytes) :=
  if nRounds < 1 ∨ chSalt.length ≠ walletCryptoSaltSize then none
  else if nDerivationMethod = 0 then some (bytesToKey strKeyData chSalt nRounds)
  else none

def MasterKey.setKey (pMasterKey : MasterKey) (strWalletPassphrase : Bytes) : Option (Bytes × Bytes) :=
  setKeyFromPassphrase bytesToKey strWalletPassphrase pMasterKey.vchSalt pMasterKey.nDeriveIterations
    pMasterKey.nDerivationMethod

end

namespace KeyWallet

section
variable (P : Primitives) (bytesToKey : Bytes → Bytes → Nat → Bytes × Bytes)

/-- The loop of `Unlock`. -/
def unlockLoop (s : CCryptoKeyStore) (strWalletPassphrase : Bytes) (fForMixingOnly : Bool) :
    List MasterKey → Option (CCryptoKeyStore × Bool)
  | [] => some (s, false)
  | pMasterKey :: rest =>
    match pMasterKey.setKey bytesToKey strWalletPassphrase with
    | none => some (s, false)
    | some (vchKey, vchIV) =>
      match P.decrypt vchKey vchIV pMasterKey.vchCryptedKey with
      | none => unlockLoop s strWalletPassphrase fForMixingOnly rest -- try another master key
      | some vMasterKey =>
        (s.unlock P vMasterKey fForMixingOnly).bind fun (s, opened) =>
        if opened then some (s, true) else unlockLoop s strWalletPassphrase fForMixingOnly rest

def unlock (topUpKeyPool : KeyWallet → KeyWallet) (w : KeyWallet) (strWalletPassphrase : Bytes) (fForMixingOnly : Bool)
    (nWalletBackups : Int) : Option (KeyWallet × Bool) :=
  if !w.isLocked false then some (w, true) -- was already fully unlocked, not only for mixing
  else
    (unlockLoop P bytesToKey w.toCCryptoKeyStore strWalletPassphrase fForMixingOnly w.mapMasterKeys).map fun (s, opened) =>
    let w := { w with toCCryptoKeyStore := s }
    (if opened && nWalletBackups == -2 then topUpKeyPool w else w, opened)

section
variable (estimate : MasterKey → Nat)

/-- What `ChangeWalletPassphrase` makes of the master key that opened the store. -/
def changeMasterKey (pMasterKey : MasterKey) (strNewWalletPassphrase vMasterKey : Bytes) : MasterKey × Bool :=
  -- the two calls of SetKeyFromPassphrase before this one are only timed
  let nDeriveIterations := max (estimate pMasterKey) minDeriveIterations
  let pMasterKey := { pMasterKey with nDeriveIterations := nDeriveIterations }
  match pMasterKey.setKey bytesToKey strNewWalletPassphrase with
  | none => (pMasterKey, false)
  | some (vchKey, vchIV) => ({ pMasterKey with vchCryptedKey := P.encrypt vchKey vchIV vMasterKey }, true)

/-- The loop of `ChangeWalletPassphrase`: the store, the master keys and the answer. -/
def changeLoop (s : CCryptoKeyStore) (fWasLocked : Bool) (strOldWalletPassphrase strNewWalletPassphrase : Bytes) :
    List MasterKey → Option (CCryptoKeyStore × List MasterKey × Bool)
  | [] => some (s, [], false)
  | pMasterKey :: rest =>
    match pMasterKey.setKey bytesToKey strOldWalletPassphrase with
    | none => some (s, pMasterKey :: rest, false)
    | some (vchKey, vchIV) =>
      match P.decrypt vchKey vchIV pMasterKey.vchCryptedKey with
      | none => some (s, pMasterKey :: rest, false)
      | some vMasterKey =>
        (s.unlock P vMasterKey false).bind fun (s, opened) =>
        if opened then
          let (pMasterKey, changed) := changeMasterKey P bytesToKey estimate pMasterKey strNewWalletPassphrase vMasterKey
          some (if changed && fWasLocked then s.lock false else s, pMasterKey :: rest, changed)
        else
          (changeLoop s fWasLocked strOldWalletPassphrase strNewWalletPassphrase rest).map fun (s, keys, changed) =>
          (s, pMasterKey :: keys, changed)

def changeWalletPassphrase (w : KeyWallet) (strOldWalletPassphrase strNewWalletPassphrase : Bytes) :
    Option (KeyWallet × Bool) :=
  let fWasLocked := w.isLocked true
  let s := w.toCCryptoKeyStore.lock false
  (changeLoop P bytesToKey estimate s fWasLocked strOldWalletPassphrase strNewWalletPassphrase w.mapMasterKeys).map
    fun (s, keys, changed) => (⟨s, keys⟩, changed)

end

end

end KeyWallet

/-! ## What a key opens -/

namespace CCryptoKeyStore

section
variable (P : Primitives) (s : CCryptoKeyStore) (k : Bytes)

/-- The keys `Unlock` decrypts: one of them once all have been checked. -/
def examined : List (CKeyID × CPubKey × Bytes) :=
  if s.fDecryptionThoroughlyChecked then s.mapCryptedKeys.toList.take 1 else s.mapCryptedKeys.toList

def EntryOpens (e : CKeyID × CPubKey × Bytes) : Prop := (decryptKey P k e.2.2 e.2.1).isSome = true

def HasSecrets : Prop := s.examined ≠ [] ∨ s.cryptedHDChain.isNull = false

def KeysOpen : Prop := ∀ e ∈ s.examined, EntryOpens P k e

def ChainOpens : Prop :=
  s.cryptedHDChain.isNull = true ∨ ({ s with vMasterKey := k }.decryptHDChain P .null).isSome = true

structure Opens : Prop where
  has : s.HasSecrets
  keys : s.KeysOpen P k
  chain : s.ChainOpens P k

structure ChainFails : Prop where
  has : s.HasSecrets
  keys : s.KeysOpen P k
  chain : ¬ s.ChainOpens P k

/-- Some keys decrypt but not all, which the program takes for a corrupted wallet. -/
def Torn : Prop := (∃ e ∈ s.examined.head?, EntryOpens P k e) ∧ ¬ s.KeysOpen P k

end

section
variable {P : Primitives} {s : CCryptoKeyStore} {k : Bytes}

theorem size_of_decryptSecret {c m : Bytes} {nIV : Uint256} (h : decryptSecret P k c nIV = some m) :
    k.length = walletCryptoKeySize := by
  unfold decryptSecret at h
  split at h
  · assumption
  · cases h

theorem EntryOpens.size {e : CKeyID × CPubKey × Bytes} (h : EntryOpens P k e) : k.length = walletCryptoKeySize := by
  obtain ⟨key, hkey⟩ := Option.isSome_iff_exists.1 h
  obtain ⟨m, hm, -⟩ := Option.bind_eq_some_iff.1 hkey
  exact size_of_decryptSecret hm

/-- The chain that comes back has the id of the encrypted one, and the key has the cipher's size. -/
theorem decryptHDChain_some (hused : s.fUseCrypto = true) {tmp chain : CHDChain} (h : s.decryptHDChain P tmp = some chain) :
    s.vMasterKey.length = walletCryptoKeySize ∧ chain.getSeedHash P = s.cryptedHDChain.id := by
  unfold decryptHDChain at h
  rw [hused, Bool.not_true, if_neg (by decide)] at h
  split at h
  · cases h
  split at h
  · cases h
  obtain ⟨seed, hseed, h⟩ := Option.bind_eq_some_iff.1 h
  obtain ⟨opened, hopened, h⟩ := Option.bind_eq_some_iff.1 h
  refine ⟨size_of_decryptSecret hseed, ?_⟩
  by_cases hid : opened.getSeedHash P = s.cryptedHDChain.id
  · rw [if_neg (not_not.2 hid)] at h
    obtain ⟨full, hfull, rfl⟩ := Option.map_eq_some_iff.1 h
    have hsame : full.vchSeed = opened.vchSeed := by
      cases hmn : s.cryptedHDChain.getMnemonic with
      | none =>
        rw [hmn, Option.elim_none] at hfull
        cases hfull
        rfl
      | some mn =>
        rw [hmn, Option.elim_some] at hfull
        obtain ⟨mnemonic, -, hfull⟩ := Option.bind_eq_some_iff.1 hfull
        obtain ⟨passphrase, -, hfull⟩ := Option.bind_eq_some_iff.1 hfull
        simp only [CHDChain.setMnemonic] at hfull
        split at hfull
        · cases hfull
        · cases hfull
          rfl
    show P.hash full.vchSeed = _
    rw [hsame]
    exact hid
  · rw [if_pos hid] at h
    cases h

theorem chainPass_iff (hused : s.fUseCrypto = true) :
    (s.cryptedHDChain.isNull || ({ s with vMasterKey := k }.decryptHDChain P .null).elim false
      fun hdChainTmp => s.cryptedHDChain.id == hdChainTmp.getSeedHash P) = true ↔ s.ChainOpens P k := by
  rw [Bool.or_eq_true]
  refine or_congr Iff.rfl ?_
  cases hdec : { s with vMasterKey := k }.decryptHDChain P .null with
  | none => simp
  | some chain =>
    have hid := (decryptHDChain_some (s := { s with vMasterKey := k }) hused hdec).2
    simp [hid]

theorem checkKeys_fst (fChecked : Bool) (l : List (CKeyID × CPubKey × Bytes)) :
    (checkKeys P fChecked k l).1 = true ↔ ∃ e ∈ l.head?, EntryOpens P k e := by
  cases l with
  | nil => simp [checkKeys]
  | cons e l =>
    obtain ⟨address, vchPubKey, vchCryptedSecret⟩ := e
    rw [List.head?_cons, checkKeys]
    cases hdec : decryptKey P k vchCryptedSecret vchPubKey with
    | none => simp [EntryOpens, hdec]
    | some key => cases fChecked <;> simp [EntryOpens, hdec]

theorem checkKeys_snd (fChecked : Bool) (l : List (CKeyID × CPubKey × Bytes)) :
    (checkKeys P fChecked k l).2 = true ↔ ¬ ∀ e ∈ if fChecked then l.take 1 else l, EntryOpens P k e := by
  induction l with
  | nil => cases fChecked <;> simp [checkKeys]
  | cons e l ih =>
    obtain ⟨address, vchPubKey, vchCryptedSecret⟩ := e
    rw [checkKeys]
    cases hdec : decryptKey P k vchCryptedSecret vchPubKey with
    | none => cases fChecked <;> simp [EntryOpens, hdec]
    | some key =>
      cases fChecked with
      | true => simp [EntryOpens, hdec]
      | false =>
        simp only [Bool.false_eq_true, if_false] at ih ⊢
        rw [ih, List.forall_mem_cons, and_iff_right (by simp [EntryOpens, hdec])]

theorem head?_examined : s.examined.head? = s.mapCryptedKeys.toList.head? := by
  unfold examined
  split
  · cases s.mapCryptedKeys.toList <;> rfl
  · rfl

/-- What the key store's `Unlock` answers and leaves. -/
inductive UnlockResult (P : Primitives) (s : CCryptoKeyStore) (k : Bytes) (fForMixingOnly : Bool) :
    Option (CCryptoKeyStore × Bool) → Prop
  | torn (h : s.Torn P k) : UnlockResult P s k fForMixingOnly none
  | opens (h : s.Opens P k) : UnlockResult P s k fForMixingOnly
      (some ({ s with vMasterKey := k, fDecryptionThoroughlyChecked := true, fOnlyMixingAllowed := fForMixingOnly }, true))
  | chainFails (h : s.ChainFails P k) : UnlockResult P s k fForMixingOnly (some ({ s with vMasterKey := [] }, false))
  | refused (hopens : ¬ s.Opens P k) (htorn : ¬ s.Torn P k) (hchain : ¬ s.ChainFails P k) :
    UnlockResult P s k fForMixingOnly (some (s, false))

theorem unlock_eq (hused : s.fUseCrypto = true) (fForMixingOnly : Bool) :
    UnlockResult P s k fForMixingOnly (s.unlock P k fForMixingOnly) := by
  have hfst := checkKeys_fst (P := P) (k := k) s.fDecryptionThoroughlyChecked s.mapCryptedKeys.toList
  have hsnd := checkKeys_snd (P := P) (k := k) s.fDecryptionThoroughlyChecked s.mapCryptedKeys.toList
  have hpass := chainPass_iff (P := P) (k := k) hused
  rw [← head?_examined] at hfst
  change _ ↔ ¬ s.KeysOpen P k at hsnd
  simp only [unlock, setCrypted_of_used hused]
  generalize checkKeys P s.fDecryptionThoroughlyChecked k s.mapCryptedKeys.toList = r at hfst hsnd
  obtain ⟨keyPass, keyFail⟩ := r
  have hlast (hhas : s.HasSecrets) (hkeys : s.KeysOpen P k) : UnlockResult P s k fForMixingOnly
      (if (s.cryptedHDChain.isNull || ({ s with vMasterKey := k }.decryptHDChain P .null).elim false
          fun hdChainTmp => s.cryptedHDChain.id == hdChainTmp.getSeedHash P) = true then
        some ({ s with
          vMasterKey := k, fDecryptionThoroughlyChecked := true, fOnlyMixingAllowed := fForMixingOnly }, true)
      else some ({ s with vMasterKey := [] }, false)) := by
    split
    · rename_i hchain
      exact .opens ⟨hhas, hkeys, hpass.1 hchain⟩
    · rename_i hchain
      exact .chainFails ⟨hhas, hkeys, fun hc => hchain (hpass.2 hc)⟩
  cases keyFail with
  | true =>
    have hkeys : ¬ s.KeysOpen P k := hsnd.1 rfl
    cases keyPass with
    | true => exact .torn ⟨hfst.1 rfl, hkeys⟩
    | false => exact .refused (fun h => hkeys h.keys) (fun h => Bool.noConfusion (hfst.2 h.1)) fun h => hkeys h.keys
  | false =>
    have hkeys : s.KeysOpen P k := by
      by_contra h
      exact Bool.noConfusion (hsnd.2 h)
    cases keyPass with
    | true =>
      obtain ⟨e, he, -⟩ := hfst.1 rfl
      have hne : s.examined ≠ [] := by
        intro h
        rw [h] at he
        cases he
      exact hlast (.inl hne) hkeys
    | false =>
      have hnil : s.examined = [] := by
        cases hexamined : s.examined with
        | nil => rfl
        | cons e l =>
          have he : e ∈ s.examined := hexamined ▸ List.mem_cons_self
          exact Bool.noConfusion (hfst.2 ⟨e, by simp [hexamined], hkeys e he⟩)
      by_cases hnull : s.cryptedHDChain.isNull = true
      · have hhas : ¬ s.HasSecrets := by simp [HasSecrets, hnil, hnull]
        simp only [hnull, Bool.not_false, Bool.and_self, Bool.or_true, if_true, Bool.false_eq_true, if_false]
        exact .refused (fun h => hhas h.has) (fun h => h.2 hkeys) fun h => hhas h.has
      · rw [Bool.not_eq_true] at hnull
        simpa only [hnull, Bool.and_false, Bool.false_and, Bool.or_self, Bool.false_eq_true, if_false, Bool.false_or] using
          hlast (.inr hnull) hkeys

theorem Opens.ne_nil (hused : s.fUseCrypto = true) (h : s.Opens P k) : k ≠ [] := by
  have hsize : k.length = walletCryptoKeySize := by
    cases hexamined : s.examined with
    | cons e l =>
      have he : e ∈ s.examined := hexamined ▸ List.mem_cons_self
      exact (h.keys e he).size
    | nil =>
      have hnull : s.cryptedHDChain.isNull = false := h.has.resolve_left (not_not.2 hexamined)
      obtain hc | hc := h.chain
      · rw [hnull] at hc
        cases hc
      · obtain ⟨chain, hchain⟩ := Option.isSome_iff_exists.1 hc
        exact (decryptHDChain_some (s := { s with vMasterKey := k }) hused hchain).1
  rintro rfl
  cases hsize

/-! ## The lock state -/

theorem isLocked_true (hused : s.fUseCrypto = true) : s.isLocked true = s.vMasterKey.isEmpty := by
  rw [isLocked, hused]
  rfl

theorem isLocked_false (hused : s.fUseCrypto = true) : s.isLocked false = (s.fOnlyMixingAllowed || s.vMasterKey.isEmpty) := by
  rw [isLocked, hused]
  cases s.fOnlyMixingAllowed <;> rfl

theorem lockState_locked_iff (hused : s.fUseCrypto = true) : s.lockState = .locked ↔ s.vMasterKey = [] := by
  rw [lockState, isLocked_true hused, ← List.isEmpty_iff]
  split
  · simp [*]
  · split <;> simp [*]

theorem lockState_unlocked_iff (hused : s.fUseCrypto = true) :
    s.lockState = .unlocked ↔ s.vMasterKey ≠ [] ∧ s.fOnlyMixingAllowed = false := by
  rw [lockState, isLocked_true hused, isLocked_false hused, Ne, ← List.isEmpty_iff]
  cases s.vMasterKey.isEmpty <;> cases s.fOnlyMixingAllowed <;> simp

theorem isLocked_true_iff (hused : s.fUseCrypto = true) : s.isLocked true = true ↔ s.lockState = .locked := by
  rw [isLocked_true hused, lockState_locked_iff hused, List.isEmpty_iff]

theorem isLocked_false_iff (hused : s.fUseCrypto = true) : s.isLocked false = false ↔ s.lockState = .unlocked := by
  rw [isLocked_false hused, lockState_unlocked_iff hused, Ne, ← List.isEmpty_iff]
  cases s.vMasterKey.isEmpty <;> cases s.fOnlyMixingAllowed <;> simp

theorem lockState_of_locked (hused : s.fUseCrypto = true) (b : Bool) :
    { s with vMasterKey := [], fOnlyMixingAllowed := b }.lockState = .locked :=
  (lockState_locked_iff (s := { s with vMasterKey := [], fOnlyMixingAllowed := b }) hused).2 rfl

theorem lock_eq (hused : s.fUseCrypto = true) : s.lock false = { s with vMasterKey := [], fOnlyMixingAllowed := false } := by
  rw [lock, setCrypted_of_used hused]
  rfl

end

/-! ## The keys a loop tries -/

section
variable (P : Primitives) (s : CCryptoKeyStore)

/-- The key store's `Unlock` with one key after another, until one opens it. -/
def unlockAny (s : CCryptoKeyStore) (fForMixingOnly : Bool) : List Bytes → Option (CCryptoKeyStore × Bool)
  | [] => some (s, false)
  | k :: ks =>
    (s.unlock P k fForMixingOnly).bind fun (s, opened) => if opened then some (s, true) else unlockAny s fForMixingOnly ks

/-- The assertion fails: a key that decrypts some entries only comes before any that opens the store. -/
def TornFirst : List Bytes → Prop
  | [] => False
  | k :: ks => s.Torn P k ∨ ¬ s.Opens P k ∧ TornFirst ks

end

variable {P : Primitives} {s : CCryptoKeyStore} {k : Bytes}

theorem opens_lock (m : Bytes) (b : Bool) :
    { s with vMasterKey := m, fOnlyMixingAllowed := b }.Opens P k ↔ s.Opens P k :=
  ⟨fun ⟨hhas, hkeys, hchain⟩ => ⟨hhas, hkeys, hchain⟩, fun ⟨hhas, hkeys, hchain⟩ => ⟨hhas, hkeys, hchain⟩⟩

theorem chainFails_lock (m : Bytes) (b : Bool) :
    { s with vMasterKey := m, fOnlyMixingAllowed := b }.ChainFails P k ↔ s.ChainFails P k :=
  ⟨fun ⟨hhas, hkeys, hchain⟩ => ⟨hhas, hkeys, hchain⟩, fun ⟨hhas, hkeys, hchain⟩ => ⟨hhas, hkeys, hchain⟩⟩

theorem Opens.not_torn (h : s.Opens P k) : ¬ s.Torn P k := fun ht => ht.2 h.keys

theorem TornFirst.exists_mem {ks : List Bytes} (h : s.TornFirst P ks) : ∃ k ∈ ks, s.Torn P k := by
  induction ks with
  | nil => exact h.elim
  | cons k ks ih =>
    obtain hk | ⟨-, hks⟩ := h
    · exact ⟨k, List.mem_cons_self, hk⟩
    · obtain ⟨j, hj, ht⟩ := ih hks
      exact ⟨j, List.mem_cons_of_mem _ hj, ht⟩

/-- What trying the keys of a list leaves of a store with the master key `m` in memory and the flag `b`. -/
inductive AnyResult (P : Primitives) (s : CCryptoKeyStore) (m : Bytes) (b fForMixingOnly : Bool) (ks : List Bytes) :
    Option (CCryptoKeyStore × Bool) → Prop
  | torn (h : s.TornFirst P ks) : AnyResult P s m b fForMixingOnly ks none
  | opens (k : Bytes) (hk : k ∈ ks) (h : s.Opens P k) (hfirst : ¬ s.TornFirst P ks) :
    AnyResult P s m b fForMixingOnly ks (some ({ s with
      vMasterKey := k, fDecryptionThoroughlyChecked := true, fOnlyMixingAllowed := fForMixingOnly }, true))
  | cleared (k : Bytes) (hk : k ∈ ks) (h : s.ChainFails P k) (hopens : ∀ k ∈ ks, ¬ s.Opens P k)
      (htorn : ∀ k ∈ ks, ¬ s.Torn P k) :
    AnyResult P s m b fForMixingOnly ks (some ({ s with vMasterKey := [], fOnlyMixingAllowed := b }, false))
  | refused (hopens : ∀ k ∈ ks, ¬ s.Opens P k) (htorn : ∀ k ∈ ks, ¬ s.Torn P k) (hchain : ∀ k ∈ ks, ¬ s.ChainFails P k) :
    AnyResult P s m b fForMixingOnly ks (some ({ s with vMasterKey := m, fOnlyMixingAllowed := b }, false))

theorem AnyResult.cons {m : Bytes} {b fForMixingOnly : Bool} {ks : List Bytes} {r : Option (CCryptoKeyStore × Bool)}
    (hopens : ¬ s.Opens P k) (htorn : ¬ s.Torn P k) (hchain : ¬ s.ChainFails P k) (h : AnyResult P s m b fForMixingOnly ks r) :
    AnyResult P s m b fForMixingOnly (k :: ks) r := by
  cases h with
  | torn h => exact .torn (.inr ⟨hopens, h⟩)
  | opens j hj h hfirst => exact .opens j (List.mem_cons_of_mem _ hj) h fun hf => hf.elim htorn fun hf => hfirst hf.2
  | cleared j hj h ho ht =>
    exact .cleared j (List.mem_cons_of_mem _ hj) h (List.forall_mem_cons.2 ⟨hopens, ho⟩) (List.forall_mem_cons.2 ⟨htorn, ht⟩)
  | refused ho ht hc =>
    exact .refused (List.forall_mem_cons.2 ⟨hopens, ho⟩) (List.forall_mem_cons.2 ⟨htorn, ht⟩)
      (List.forall_mem_cons.2 ⟨hchain, hc⟩)

/-- A first key that clears the master key: no key after it that is refused brings it back. -/
theorem AnyResult.cons_cleared (m : Bytes) {b fForMixingOnly : Bool} {ks : List Bytes} {r : Option (CCryptoKeyStore × Bool)}
    (hchain : s.ChainFails P k) (h : AnyResult P s [] b fForMixingOnly ks r) : AnyResult P s m b fForMixingOnly (k :: ks) r := by
  have hopens : ¬ s.Opens P k := fun ho => hchain.chain ho.chain
  have htorn : ¬ s.Torn P k := fun ht => ht.2 hchain.keys
  cases h with
  | torn h => exact .torn (.inr ⟨hopens, h⟩)
  | opens j hj h hfirst => exact .opens j (List.mem_cons_of_mem _ hj) h fun hf => hf.elim htorn fun hf => hfirst hf.2
  | cleared j hj h ho ht =>
    exact .cleared j (List.mem_cons_of_mem _ hj) h (List.forall_mem_cons.2 ⟨hopens, ho⟩) (List.forall_mem_cons.2 ⟨htorn, ht⟩)
  | refused ho ht hc =>
    exact .cleared k List.mem_cons_self hchain (List.forall_mem_cons.2 ⟨hopens, ho⟩) (List.forall_mem_cons.2 ⟨htorn, ht⟩)

theorem unlockAny_spec (hused : s.fUseCrypto = true) (m : Bytes) (b fForMixingOnly : Bool) (ks : List Bytes) :
    AnyResult P s m b fForMixingOnly ks (unlockAny P { s with vMasterKey := m, fOnlyMixingAllowed := b } fForMixingOnly ks) := by
  induction ks generalizing m with
  | nil => exact .refused (List.forall_mem_nil _) (List.forall_mem_nil _) (List.forall_mem_nil _)
  | cons k ks ih =>
    have hstep := unlock_eq (P := P) (s := { s with vMasterKey := m, fOnlyMixingAllowed := b }) (k := k) hused fForMixingOnly
    rw [unlockAny]
    generalize CCryptoKeyStore.unlock P { s with vMasterKey := m, fOnlyMixingAllowed := b } k fForMixingOnly = r at hstep
    cases hstep with
    | torn h => exact .torn (.inl h)
    | opens h =>
      have ho := (opens_lock m b).1 h
      exact .opens k List.mem_cons_self ho fun hf => hf.elim ho.not_torn fun hf => hf.1 ho
    | chainFails h => exact .cons_cleared m ((chainFails_lock m b).1 h) (ih [])
    | refused ho ht hc =>
      exact (ih m).cons (fun h => ho ((opens_lock m b).2 h)) ht fun h => hc ((chainFails_lock m b).2 h)

end CCryptoKeyStore

/-! ## The calls -/

section
variable (P : Primitives) (bytesToKey : Bytes → Bytes → Nat → Bytes × Bytes) (strWalletPassphrase : Bytes)

def MasterKey.decrypted (pMasterKey : MasterKey) : Option Bytes :=
  (pMasterKey.setKey bytesToKey strWalletPassphrase).bind fun (vchKey, vchIV) => P.decrypt vchKey vchIV pMasterKey.vchCryptedKey

namespace KeyWallet

/-- `Unlock` ends at a master key whose derivation fails and passes over one that does not decrypt. -/
def unlockTried (keys : List MasterKey) : List Bytes :=
  (keys.takeWhile fun pMasterKey => (pMasterKey.setKey bytesToKey strWalletPassphrase).isSome).filterMap
    (MasterKey.decrypted P bytesToKey strWalletPassphrase)

/-- `ChangeWalletPassphrase` ends at either. -/
def changeTried (keys : List MasterKey) : List Bytes :=
  (keys.takeWhile fun pMasterKey => (pMasterKey.decrypted P bytesToKey strWalletPassphrase).isSome).filterMap
    (MasterKey.decrypted P bytesToKey strWalletPassphrase)

end KeyWallet

end

theorem setKeyFromPassphrase_isSome {bytesToKey : Bytes → Bytes → Nat → Bytes × Bytes} {strKeyData chSalt : Bytes}
    {nRounds nDerivationMethod : Nat} :
    (setKeyFromPassphrase bytesToKey strKeyData chSalt nRounds nDerivationMethod).isSome = true ↔
      1 ≤ nRounds ∧ chSalt.length = walletCryptoSaltSize ∧ nDerivationMethod = 0 := by
  unfold setKeyFromPassphrase
  split
  · rename_i h
    simp only [Option.isSome_none, Bool.false_eq_true, false_iff]
    rintro ⟨hrounds, hsalt, -⟩
    exact h.elim (by omega) fun hne => hne hsalt
  · rename_i h
    obtain ⟨hrounds, hsalt⟩ := not_or.1 h
    rw [not_lt] at hrounds
    rw [not_not] at hsalt
    by_cases hmethod : nDerivationMethod = 0
    · simp [hmethod, hrounds, hsalt]
    · simp [hmethod]

namespace KeyWallet

variable {P : Primitives} {bytesToKey : Bytes → Bytes → Nat → Bytes × Bytes} {estimate : MasterKey → Nat}

/-- Neither the salt nor the method changes, and the rounds only grow from zero. -/
theorem changeMasterKey_changed {pMasterKey : MasterKey} {strOldWalletPassphrase : Bytes} {r : Bytes × Bytes}
    (h : pMasterKey.setKey bytesToKey strOldWalletPassphrase = some r) (strNewWalletPassphrase vMasterKey : Bytes) :
    (changeMasterKey P bytesToKey estimate pMasterKey strNewWalletPassphrase vMasterKey).2 = true := by
  obtain ⟨-, hsalt, hmethod⟩ := setKeyFromPassphrase_isSome.1 (Option.isSome_iff_exists.2 ⟨r, h⟩)
  have hrounds : 1 ≤ max (estimate pMasterKey) minDeriveIterations := le_max_of_le_right (by decide)
  have hsome : (setKeyFromPassphrase bytesToKey strNewWalletPassphrase pMasterKey.vchSalt
      (max (estimate pMasterKey) minDeriveIterations) pMasterKey.nDerivationMethod).isSome = true :=
    setKeyFromPassphrase_isSome.2 ⟨hrounds, hsalt, hmethod⟩
  obtain ⟨r', hr'⟩ := Option.isSome_iff_exists.1 hsome
  simp only [changeMasterKey, MasterKey.setKey, hr']

theorem unlockLoop_eq (s : CCryptoKeyStore) (strWalletPassphrase : Bytes) (fForMixingOnly : Bool) (keys : List MasterKey) :
    unlockLoop P bytesToKey s strWalletPassphrase fForMixingOnly keys =
      s.unlockAny P fForMixingOnly (unlockTried P bytesToKey strWalletPassphrase keys) := by
  induction keys generalizing s with
  | nil => rfl
  | cons pMasterKey rest ih =>
    rw [unlockLoop]
    cases hset : pMasterKey.setKey bytesToKey strWalletPassphrase with
    | none => simp [unlockTried, hset, CCryptoKeyStore.unlockAny]
    | some r =>
      obtain ⟨vchKey, vchIV⟩ := r
      have hdecrypted : pMasterKey.decrypted P bytesToKey strWalletPassphrase =
          P.decrypt vchKey vchIV pMasterKey.vchCryptedKey := by
        rw [MasterKey.decrypted, hset, Option.bind_some]
      have htried : unlockTried P bytesToKey strWalletPassphrase (pMasterKey :: rest) =
          (pMasterKey.decrypted P bytesToKey strWalletPassphrase).elim id List.cons
            (unlockTried P bytesToKey strWalletPassphrase rest) := by
        rw [unlockTried, List.takeWhile_cons, if_pos (by simp [hset]), List.filterMap_cons]
        cases pMasterKey.decrypted P bytesToKey strWalletPassphrase <;> rfl
      rw [htried, hdecrypted]
      cases hdec : P.decrypt vchKey vchIV pMasterKey.vchCryptedKey with
      | none =>
        simp only [hdec]
        exact ih s
      | some vMasterKey =>
        simp only [hdec, Option.elim_some, CCryptoKeyStore.unlockAny]
        refine congrArg _ (funext fun x => ?_)
        rw [ih]

variable (bytesToKey estimate) in
theorem changeLoop_eq (s : CCryptoKeyStore) (fWasLocked : Bool) (strOldWalletPassphrase strNewWalletPassphrase : Bytes)
    (keys : List MasterKey) :
    (changeLoop P bytesToKey estimate s fWasLocked strOldWalletPassphrase strNewWalletPassphrase keys).map
        (fun r => (r.1, r.2.2)) =
      (s.unlockAny P false (changeTried P bytesToKey strOldWalletPassphrase keys)).map fun (s, opened) =>
        (if opened && fWasLocked then s.lock false else s, opened) := by
  induction keys generalizing s with
  | nil => rfl
  | cons pMasterKey rest ih =>
    rw [changeLoop]
    cases hset : pMasterKey.setKey bytesToKey strOldWalletPassphrase with
    | none => simp [changeTried, MasterKey.decrypted, hset, CCryptoKeyStore.unlockAny]
    | some r =>
      obtain ⟨vchKey, vchIV⟩ := r
      have hdecrypted : pMasterKey.decrypted P bytesToKey strOldWalletPassphrase =
          P.decrypt vchKey vchIV pMasterKey.vchCryptedKey := by
        rw [MasterKey.decrypted, hset, Option.bind_some]
      simp only
      cases hdec : P.decrypt vchKey vchIV pMasterKey.vchCryptedKey with
      | none => simp [changeTried, hdecrypted, hdec, CCryptoKeyStore.unlockAny]
      | some vMasterKey =>
        have htried : changeTried P bytesToKey strOldWalletPassphrase (pMasterKey :: rest) =
            vMasterKey :: changeTried P bytesToKey strOldWalletPassphrase rest := by
          rw [changeTried, List.takeWhile_cons, if_pos (by simp [hdecrypted, hdec]), List.filterMap_cons, hdecrypted, hdec]
          rfl
        have hchanged : (changeMasterKey P bytesToKey estimate pMasterKey strNewWalletPassphrase vMasterKey).2 = true :=
          changeMasterKey_changed hset strNewWalletPassphrase vMasterKey
        rw [htried, CCryptoKeyStore.unlockAny]
        dsimp only
        cases s.unlock P vMasterKey false with
        | none => rfl
        | some r =>
          obtain ⟨s, opened⟩ := r
          cases opened with
          | true => simp [hchanged]
          | false => simpa [Function.comp_def] using ih s

end KeyWallet

/-! ## When the lock state is kept -/

namespace KeyWallet

section
variable (P : Primitives) (bytesToKey : Bytes → Bytes → Nat → Bytes × Bytes)

/-- `Unlock` returning false leaves the lock state. -/
def UnlockKeeps (topUpKeyPool : KeyWallet → KeyWallet) (w : KeyWallet) (strWalletPassphrase : Bytes)
    (fForMixingOnly : Bool) (nWalletBackups : Int) : Prop :=
  ∀ w', w.unlock P bytesToKey topUpKeyPool strWalletPassphrase fForMixingOnly nWalletBackups = some (w', false) →
    w'.lockState = w.lockState

/-- `ChangeWalletPassphrase` leaves the lock state, whatever it returns. -/
def ChangeKeeps (estimate : MasterKey → Nat) (w : KeyWallet) (strOldWalletPassphrase strNewWalletPassphrase : Bytes) : Prop :=
  ∀ w' changed, w.changeWalletPassphrase P bytesToKey estimate strOldWalletPassphrase strNewWalletPassphrase =
    some (w', changed) → w'.lockState = w.lockState

end

variable {P : Primitives} {bytesToKey : Bytes → Bytes → Nat → Bytes × Bytes} {w : KeyWallet}

theorem unlockKeeps_iff_loop (topUpKeyPool : KeyWallet → KeyWallet) (strWalletPassphrase : Bytes) (fForMixingOnly : Bool)
    (nWalletBackups : Int) :
    UnlockKeeps P bytesToKey topUpKeyPool w strWalletPassphrase fForMixingOnly nWalletBackups ↔
      (w.isLocked false = true → ∀ s, w.unlockAny P fForMixingOnly
        (unlockTried P bytesToKey strWalletPassphrase w.mapMasterKeys) = some (s, false) → s.lockState = w.lockState) := by
  unfold UnlockKeeps unlock
  rw [← unlockLoop_eq]
  cases hlocked : w.isLocked false with
  | false => simp
  | true =>
    simp only [Bool.not_true, Bool.false_eq_true, if_false, forall_const]
    cases unlockLoop P bytesToKey w.toCCryptoKeyStore strWalletPassphrase fForMixingOnly w.mapMasterKeys with
    | none => simp
    | some r =>
      obtain ⟨s, opened⟩ := r
      constructor
      · intro h s' heq
        cases heq
        exact h ⟨s, w.mapMasterKeys⟩ rfl
      · intro h w' heq
        cases opened with
        | true => cases heq
        | false =>
          cases heq
          exact h s rfl

theorem unlock_keeps_iff (hused : w.fUseCrypto = true) (topUpKeyPool : KeyWallet → KeyWallet) (strWalletPassphrase : Bytes)
    (fForMixingOnly : Bool) (nWalletBackups : Int) :
    UnlockKeeps P bytesToKey topUpKeyPool w strWalletPassphrase fForMixingOnly nWalletBackups ↔
      (w.lockState = .mixingOnly →
        w.TornFirst P (unlockTried P bytesToKey strWalletPassphrase w.mapMasterKeys) ∨
        (∃ k ∈ unlockTried P bytesToKey strWalletPassphrase w.mapMasterKeys, w.Opens P k) ∨
        ∀ k ∈ unlockTried P bytesToKey strWalletPassphrase w.mapMasterKeys, ¬ w.ChainFails P k) := by
  have hspec := CCryptoKeyStore.unlockAny_spec (P := P) hused w.vMasterKey w.fOnlyMixingAllowed fForMixingOnly
    (unlockTried P bytesToKey strWalletPassphrase w.mapMasterKeys)
  change CCryptoKeyStore.AnyResult P w.toCCryptoKeyStore _ _ _ _ (w.unlockAny P fForMixingOnly _) at hspec
  rw [unlockKeeps_iff_loop]
  generalize w.unlockAny P fForMixingOnly _ = r at hspec
  cases hspec with
  | torn h => exact iff_of_true (fun _ s heq => by cases heq) fun _ => .inl h
  | opens k hk h hfirst => exact iff_of_true (fun _ s heq => by cases heq) fun _ => .inr (.inl ⟨k, hk, h⟩)
  | refused hopens htorn hchain =>
    refine iff_of_true (fun _ s heq => ?_) fun _ => .inr (.inr hchain)
    cases heq
    rfl
  | cleared k hk h hopens htorn =>
    have hshut := CCryptoKeyStore.lockState_of_locked hused w.fOnlyMixingAllowed
    constructor
    · intro hkeep hmixing
      have hlocked : w.isLocked false = true := by
        rw [← Bool.not_eq_false, CCryptoKeyStore.isLocked_false_iff hused, hmixing]
        decide
      have hlock := hkeep hlocked _ rfl
      rw [hshut, hmixing] at hlock
      cases hlock
    · intro hcond hlocked s heq
      cases heq
      rw [hshut]
      cases hstate : w.lockState with
      | locked => rfl
      | unlocked =>
        rw [(CCryptoKeyStore.isLocked_false_iff hused).2 hstate] at hlocked
        cases hlocked
      | mixingOnly =>
        obtain hf | ⟨j, hj, ho⟩ | hc := hcond hstate
        · obtain ⟨j, hj, ht⟩ := hf.exists_mem
          exact absurd ht (htorn j hj)
        · exact absurd ho (hopens j hj)
        · exact absurd h (hc k hk)

theorem changeKeeps_iff_loop (hused : w.fUseCrypto = true) (estimate : MasterKey → Nat)
    (strOldWalletPassphrase strNewWalletPassphrase : Bytes) :
    ChangeKeeps P bytesToKey estimate w strOldWalletPassphrase strNewWalletPassphrase ↔
      ∀ s opened, CCryptoKeyStore.unlockAny P { w.toCCryptoKeyStore with vMasterKey := [], fOnlyMixingAllowed := false } false
          (changeTried P bytesToKey strOldWalletPassphrase w.mapMasterKeys) = some (s, opened) →
        (if opened && w.isLocked true then s.lock false else s).lockState = w.lockState := by
  have hloop := changeLoop_eq (P := P) bytesToKey estimate (w.toCCryptoKeyStore.lock false) (w.isLocked true) strOldWalletPassphrase
    strNewWalletPassphrase w.mapMasterKeys
  rw [CCryptoKeyStore.lock_eq hused] at hloop
  unfold ChangeKeeps changeWalletPassphrase
  simp only [CCryptoKeyStore.lock_eq hused]
  generalize CCryptoKeyStore.unlockAny P _ false _ = r at hloop
  generalize changeLoop P bytesToKey estimate _ (w.isLocked true) strOldWalletPassphrase strNewWalletPassphrase _ = l at hloop
  cases r with
  | none =>
    obtain rfl : l = none := by simpa using hloop
    simp
  | some r =>
    obtain ⟨⟨s, keys, changed⟩, rfl, heq⟩ := Option.map_eq_some_iff.1 hloop
    obtain ⟨t, opened⟩ := r
    obtain ⟨hs, hchanged⟩ := Prod.mk.inj heq
    dsimp only at hs hchanged
    subst hs hchanged
    constructor
    · intro h t' opened' heq
      cases heq
      exact h ⟨_, keys⟩ changed rfl
    · intro h w' changed' heq
      cases heq
      exact h t changed rfl

theorem change_keeps_iff (hused : w.fUseCrypto = true) (estimate : MasterKey → Nat)
    (strOldWalletPassphrase strNewWalletPassphrase : Bytes) :
    ChangeKeeps P bytesToKey estimate w strOldWalletPassphrase strNewWalletPassphrase ↔
      w.lockState = .locked ∨
      w.TornFirst P (changeTried P bytesToKey strOldWalletPassphrase w.mapMasterKeys) ∨
      w.lockState = .unlocked ∧ ∃ k ∈ changeTried P bytesToKey strOldWalletPassphrase w.mapMasterKeys, w.Opens P k := by
  have hspec := CCryptoKeyStore.unlockAny_spec (P := P) hused [] false false
    (changeTried P bytesToKey strOldWalletPassphrase w.mapMasterKeys)
  have hshut := CCryptoKeyStore.lockState_of_locked hused false
  rw [changeKeeps_iff_loop hused]
  generalize CCryptoKeyStore.unlockAny P _ false _ = r at hspec
  -- no key opens the store: it stays as Lock() left it
  have hfailed (hopens : ∀ k ∈ changeTried P bytesToKey strOldWalletPassphrase w.mapMasterKeys, ¬ w.Opens P k)
      (htorn : ∀ k ∈ changeTried P bytesToKey strOldWalletPassphrase w.mapMasterKeys, ¬ w.Torn P k) :
      (∀ s opened, some ({ w.toCCryptoKeyStore with vMasterKey := [], fOnlyMixingAllowed := false }, false) = some (s, opened) →
        (if opened && w.isLocked true then s.lock false else s).lockState = w.lockState) ↔
      w.lockState = .locked ∨
      w.TornFirst P (changeTried P bytesToKey strOldWalletPassphrase w.mapMasterKeys) ∨
      w.lockState = .unlocked ∧ ∃ k ∈ changeTried P bytesToKey strOldWalletPassphrase w.mapMasterKeys, w.Opens P k := by
    constructor
    · intro hkeep
      exact .inl ((hkeep _ false rfl).symm.trans hshut)
    · intro hcond s opened heq
      cases heq
      obtain hl | hf | ⟨-, j, hj, ho⟩ := hcond
      · exact hshut.trans hl.symm
      · obtain ⟨j, hj, ht⟩ := hf.exists_mem
        exact absurd ht (htorn j hj)
      · exact absurd ho (hopens j hj)
  cases hspec with
  | torn h => exact iff_of_true (fun s opened heq => by cases heq) (.inr (.inl h))
  | opens k hk h hfirst =>
    let s : CCryptoKeyStore := { w.toCCryptoKeyStore with
      vMasterKey := k, fDecryptionThoroughlyChecked := true, fOnlyMixingAllowed := false }
    have hopened : s.lockState = .unlocked :=
      (CCryptoKeyStore.lockState_unlocked_iff (s := s) hused).2 ⟨h.ne_nil hused, rfl⟩
    have hrelocked : (s.lock false).lockState = .locked := by
      rw [CCryptoKeyStore.lock_eq (s := s) hused]
      exact CCryptoKeyStore.lockState_of_locked (s := s) hused false
    have hleft : (if true && w.isLocked true then s.lock false else s).lockState = w.lockState ↔
        w.lockState = .locked ∨ w.lockState = .unlocked := by
      cases hlocked : w.isLocked true with
      | true =>
        have hstate := (CCryptoKeyStore.isLocked_true_iff hused).1 hlocked
        simp [hrelocked, hstate]
      | false =>
        have hstate : w.lockState ≠ .locked := fun hl => by
          rw [(CCryptoKeyStore.isLocked_true_iff hused).2 hl] at hlocked
          cases hlocked
        simp [hopened, hstate, eq_comm]
    constructor
    · intro hkeep
      obtain hl | hu := hleft.1 (hkeep s true rfl)
      · exact .inl hl
      · exact .inr (.inr ⟨hu, k, hk, h⟩)
    · intro hcond s' opened heq
      cases heq
      refine hleft.2 ?_
      obtain hl | hf | hu := hcond
      · exact .inl hl
      · exact absurd hf hfirst
      · exact .inr hu.1
  | cleared k hk h hopens htorn => exact hfailed hopens htorn
  | refused hopens htorn hchain => exact hfailed hopens htorn

/-- When the lock state is kept: the keys the passphrase makes of the master keys, with what each of them opens of
    the store before the call, decide it. -/
theorem lock_state_iff (P : Primitives) (bytesToKey : Bytes → Bytes → Nat → Bytes × Bytes)
    (topUpKeyPool : KeyWallet → KeyWallet) (estimate : MasterKey → Nat) (w : KeyWallet) (hused : w.fUseCrypto = true) :
    (∀ strWalletPassphrase fForMixingOnly nWalletBackups,
      UnlockKeeps P bytesToKey topUpKeyPool w strWalletPassphrase fForMixingOnly nWalletBackups ↔
        (w.lockState = .mixingOnly →
          w.TornFirst P (unlockTried P bytesToKey strWalletPassphrase w.mapMasterKeys) ∨
          (∃ k ∈ unlockTried P bytesToKey strWalletPassphrase w.mapMasterKeys, w.Opens P k) ∨
          ∀ k ∈ unlockTried P bytesToKey strWalletPassphrase w.mapMasterKeys, ¬ w.ChainFails P k)) ∧
    ∀ strOldWalletPassphrase strNewWalletPassphrase,
      ChangeKeeps P bytesToKey estimate w strOldWalletPassphrase strNewWalletPassphrase ↔
        w.lockState = .locked ∨
        w.TornFirst P (changeTried P bytesToKey strOldWalletPassphrase w.mapMasterKeys) ∨
        w.lockState = .unlocked ∧ ∃ k ∈ changeTried P bytesToKey strOldWalletPassphrase w.mapMasterKeys, w.Opens P k :=
  ⟨unlock_keeps_iff hused topUpKeyPool, change_keeps_iff hused estimate⟩

/-- A key made of the passphrase's first byte; the salt is the initial vector. -/
def firstByteKey (strKeyData chSalt : Bytes) (_ : Nat) : Bytes × Bytes :=
  (List.replicate 32 (strKeyData.headD 0), chSalt)

/-- Its HD chain and master key are encrypted, the master key under the passphrase `[1]`. -/
def mixingWallet : KeyWallet where
  mapKeys := ∅
  hdChain := .null
  mapCryptedKeys := ∅
  cryptedHDChain := (Secrets.mk [7] [8] []).cryptedChain openPrimitives (List.replicate 32 9) [⟨0, 0⟩]
  vMasterKey := List.replicate 32 9
  fUseCrypto := true
  fOnlyMixingAllowed := true
  fDecryptionThoroughlyChecked := true
  mapMasterKeys := [⟨⟨openPrimitives.encrypt (List.replicate 32 1) (List.replicate 8 0) (List.replicate 32 9),
    List.replicate 8 0, 25000⟩, 0⟩]

theorem lock_state_sample :
    (∀ strWalletPassphrase fForMixingOnly nWalletBackups,
      UnlockKeeps openPrimitives firstByteKey id mixingWallet strWalletPassphrase fForMixingOnly nWalletBackups ↔
        (mixingWallet.lockState = .mixingOnly →
          mixingWallet.TornFirst openPrimitives
            (unlockTried openPrimitives firstByteKey strWalletPassphrase mixingWallet.mapMasterKeys) ∨
          (∃ k ∈ unlockTried openPrimitives firstByteKey strWalletPassphrase mixingWallet.mapMasterKeys,
            mixingWallet.Opens openPrimitives k) ∨
          ∀ k ∈ unlockTried openPrimitives firstByteKey strWalletPassphrase mixingWallet.mapMasterKeys,
            ¬ mixingWallet.ChainFails openPrimitives k)) ∧
    ∀ strOldWalletPassphrase strNewWalletPassphrase,
      ChangeKeeps openPrimitives firstByteKey (fun m => m.nDeriveIterations) mixingWallet strOldWalletPassphrase
          strNewWalletPassphrase ↔
        mixingWallet.lockState = .locked ∨
        mixingWallet.TornFirst openPrimitives
          (changeTried openPrimitives firstByteKey strOldWalletPassphrase mixingWallet.mapMasterKeys) ∨
        mixingWallet.lockState = .unlocked ∧
          ∃ k ∈ changeTried openPrimitives firstByteKey strOldWalletPassphrase mixingWallet.mapMasterKeys,
            mixingWallet.Opens openPrimitives k :=
  lock_state_iff openPrimitives firstByteKey id (fun m => m.nDeriveIterations) mixingWallet rfl

/-- Changing the passphrase from `[1]` to `[2]` turns the mixing-only wallet into a fully unlocked one. -/
theorem mixing_only_opened :
    ¬ ChangeKeeps openPrimitives firstByteKey (fun m => m.nDeriveIterations) mixingWallet [1] [2] ∧
      mixingWallet.lockState = .mixingOnly ∧
      ∃ w', mixingWallet.changeWalletPassphrase openPrimitives firstByteKey (fun m => m.nDeriveIterations) [1] [2] =
        some (w', true) ∧ w'.lockState = .unlocked := by
  have hchange : ∃ w', mixingWallet.changeWalletPassphrase openPrimitives firstByteKey (fun m => m.nDeriveIterations) [1] [2] =
      some (w', true) ∧ w'.lockState = .unlocked := ⟨_, rfl, rfl⟩
  refine ⟨fun hkeeps => ?_, rfl, hchange⟩
  obtain ⟨w', hw', hopened⟩ := hchange
  have hstate := hkeeps w' true hw'
  rw [hopened] at hstate
  cases hstate

/-! ## The loop of the wallet model -/

end KeyWallet

end Zumy.HDWallet
