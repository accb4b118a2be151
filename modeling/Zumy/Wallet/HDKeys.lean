/-
  Zumy.Wallet.HDKeys — the keys of a wallet over its encryption (`wallet/wallet.cpp`:
  `GenerateNewKey`, `DeriveNewChildKey`, `AddHDPubKey`, `GetPubKey`, `GetKey`, `HaveKey`,
  `AddKeyPubKey`, `EncryptWallet`, `Unlock`).

  The private key of a key derived from the HD chain is not stored: `mapHdPubKeys` holds
  its path, and `GetKey` derives it again. `AddHDPubKey` writes down the child and whether
  it is internal, not the account, which stays 0.

  A call that throws has no effect. So has one that does not come back: an assertion of
  `EncryptWallet` fails, or `DeriveNewChildKey` finds all 2^32 children known. The keys
  `TopUpKeyPool` generates are part of the call that tops up. `generated` is no field of
  the source: it lists the keys `GenerateNewKey` has returned.
-/
import Zumy.Lib.Run
import Zumy.Wallet.Crypter

namespace Zumy.HDWallet

open Zumy.Lib

structure CHDPubKey where
  pubkey : CPubKey
  nChild : Nat
  hdchainID : Uint256
  nAccountIndex : Nat
  nChangeIndex : Nat

structure CMasterKey where
  vchCryptedKey : Bytes
  vchSalt : Bytes
  nDeriveIterations : Nat

structure CWallet extends CCryptoKeyStore where
  mapHdPubKeys : Map CKeyID CHDPubKey
  /-- `mapMasterKeys`, in the order of the ids, which are counted up. -/
  mapMasterKeys : List CMasterKey
  generated : List CPubKey

/-- The loop of `DeriveNewChildKey`: the first child the wallet does not know. -/
def nextChild (known : Nat → Bool) : Nat → Nat → Option Nat
  | 0, _ => none
  | turns + 1, nChildIndex =>
    if known nChildIndex then nextChild known turns ((nChildIndex + 1) % 2 ^ 32) else some nChildIndex

namespace CWallet

def isHDEnabled (w : CWallet) : Bool := w.getHDChain.isSome

def haveKey (w : CWallet) (address : CKeyID) : Bool :=
  w.mapHdPubKeys.contains address || w.toCCryptoKeyStore.haveKey address

section
variable (P : Primitives)

def getPubKey (w : CWallet) (address : CKeyID) : Option CPubKey :=
  match w.mapHdPubKeys[address]? with
  | some hdPubKey => some hdPubKey.pubkey
  | none => w.toCCryptoKeyStore.getPubKey P address

def getKey (w : CWallet) (address : CKeyID) : Option CKey :=
  match w.mapHdPubKeys[address]? with
  | some hdPubKey =>
    w.getHDChain.bind fun hdChainCurrent =>
    (w.decryptHDChain P hdChainCurrent).bind fun hdChainCurrent =>
    if hdChainCurrent.id ≠ hdChainCurrent.getSeedHash P then none
    else some (hdChainCurrent.deriveChildExtKey P hdPubKey.nAccountIndex (hdPubKey.nChangeIndex != 0) hdPubKey.nChild)
  | none => w.toCCryptoKeyStore.getKey P address

def addKeyPubKey (w : CWallet) (secret : CKey) (pubkey : CPubKey) : Option CWallet :=
  (w.toCCryptoKeyStore.addKeyPubKey P secret pubkey).map fun s => { w with toCCryptoKeyStore := s }

def addHDPubKey (w : CWallet) (pubkey : CPubKey) (nChild : Nat) (fInternal : Bool) : CWallet :=
  { w with mapHdPubKeys := w.mapHdPubKeys.insert (P.getID pubkey) ⟨pubkey, nChild, w.currentHDChain.id, 0, if fInternal then 1 else 0⟩ }

def deriveNewChildKey (w : CWallet) (nAccountIndex : Nat) (fInternal : Bool) : Option (CWallet × CKey) :=
  w.getHDChain.bind fun hdChainTmp =>
  (w.decryptHDChain P hdChainTmp).bind fun hdChainTmp =>
  if hdChainTmp.id ≠ hdChainTmp.getSeedHash P then none
  else
    (hdChainTmp.getAccount nAccountIndex).bind fun acc =>
    let childKey := hdChainTmp.deriveChildExtKey P nAccountIndex fInternal
    let counter := if fInternal then acc.nInternalChainCounter else acc.nExternalChainCounter
    -- derive child key at next index, skip keys already known to the wallet
    (nextChild (fun n => w.haveKey (P.getID (P.getPubKey (childKey n)))) (2 ^ 32) counter).bind fun nChild =>
    let nChildIndex := (nChild + 1) % 2 ^ 32
    let acc : CHDAccount :=
      if fInternal then { acc with nInternalChainCounter := nChildIndex } else { acc with nExternalChainCounter := nChildIndex }
    (w.currentHDChain.setAccount nAccountIndex acc).bind fun hdChainCurrent =>
    (if w.fUseCrypto then w.setCryptedHDChain hdChainCurrent else w.setHDChain hdChainCurrent).map fun s =>
    (addHDPubKey P { w with toCCryptoKeyStore := s } (P.getPubKey (childKey nChild)) nChild fInternal, childKey nChild)

section
variable (makeNewKey : CWallet → Option CKey)

/-- `makeNewKey` is the random key a wallet without a chain draws; `none` where no key is left. -/
def generateNewKey (w : CWallet) (nAccountIndex : Nat) (fInternal : Bool) : Option (CWallet × CPubKey) :=
  if w.isHDEnabled then
    (w.deriveNewChildKey P nAccountIndex fInternal).map fun (w, secret) => (w, P.getPubKey secret)
  else
    (makeNewKey w).bind fun secret =>
    (w.addKeyPubKey P secret (P.getPubKey secret)).map fun w => (w, P.getPubKey secret)

/-- A caller's `GenerateNewKey`, with what it leaves where it throws. -/
def callGenerateNewKey (w : CWallet) (nAccountIndex : Nat) (fInternal : Bool) : CWallet :=
  (w.generateNewKey P makeNewKey nAccountIndex fInternal).elim w fun (w, pubkey) => { w with generated := pubkey :: w.generated }

/-- The keys `TopUpKeyPool` generates: for each, whether it is internal. -/
def topUpKeyPool (w : CWallet) (pool : List Bool) : CWallet :=
  if w.isLocked true then w else pool.foldl (fun w fInternal => w.callGenerateNewKey P makeNewKey 0 fInternal) w

def lock (w : CWallet) (fAllowMixing : Bool) : CWallet := { w with toCCryptoKeyStore := w.toCCryptoKeyStore.lock fAllowMixing }

/-- The loop of `Unlock` over the master keys. -/
def tryMasterKeys (w : CWallet) (strWalletPassphrase : Bytes) (fForMixingOnly : Bool) : List CMasterKey → CWallet × Bool
  | [] => (w, false)
  | pMasterKey :: rest =>
    match P.setKeyFromPassphrase strWalletPassphrase pMasterKey.vchSalt pMasterKey.nDeriveIterations with
    | none => (w, false)
    | some (vchKey, vchIV) =>
      match P.decrypt vchKey vchIV pMasterKey.vchCryptedKey with
      | none => tryMasterKeys w strWalletPassphrase fForMixingOnly rest -- try another master key
      | some vMasterKey =>
        match w.toCCryptoKeyStore.unlock P vMasterKey fForMixingOnly with
        | none => (w, false)
        | some (s, true) => ({ w with toCCryptoKeyStore := s }, true)
        | some (s, false) => tryMasterKeys { w with toCCryptoKeyStore := s } strWalletPassphrase fForMixingOnly rest

/-- `pool` is empty unless `nWalletBackups` is -2. -/
def unlock (w : CWallet) (strWalletPassphrase : Bytes) (fForMixingOnly : Bool) (pool : List Bool) : CWallet :=
  if !w.isLocked false then w
  else
    let (w, ok) := w.tryMasterKeys P strWalletPassphrase fForMixingOnly w.mapMasterKeys
    if ok then w.topUpKeyPool P makeNewKey pool else w

/-- The random master key and salt, the number of rounds, and the keys the pool is topped up with are parameters.
    The last call before `TopUpKeyPool` and `NewKeyPool` is `Unlock` with the same passphrase. -/
def encryptWallet (w : CWallet) (strWalletPassphrase vMasterKey vchSalt : Bytes) (nDeriveIterations : Nat) (pool : List Bool) :
    Option CWallet :=
  if w.fUseCrypto then none
  else
    (P.setKeyFromPassphrase strWalletPassphrase vchSalt nDeriveIterations).bind fun (vchKey, vchIV) =>
    let kMasterKey : CMasterKey := ⟨P.encrypt vchKey vchIV vMasterKey, vchSalt, nDeriveIterations⟩
    -- must get current HD chain before EncryptKeys
    let hdChainCurrent := w.currentHDChain
    (w.encryptKeys P vMasterKey).bind fun s =>
    let encrypted : Option CCryptoKeyStore :=
      if hdChainCurrent.isNull then some s
      else
        (s.encryptHDChain P vMasterKey).bind fun s =>
        s.getHDChain.bind fun hdChainCrypted =>
        if hdChainCurrent.id = hdChainCrypted.id ∧ hdChainCurrent.getSeedHash P ≠ hdChainCrypted.getSeedHash P then
          s.setCryptedHDChain hdChainCrypted
        else none
    encrypted.map fun s =>
      let w := { w with toCCryptoKeyStore := s, mapMasterKeys := w.mapMasterKeys ++ [kMasterKey] }
      let w := (w.lock false).unlock P makeNewKey strWalletPassphrase false []
      (w.topUpKeyPool P makeNewKey pool).lock false

end

end

end CWallet

/-- `AddKeyPubKey` is called with a private key and its public key; the master key
    `EncryptWallet` draws has the cipher's size. -/
inductive KeyCall where
  | generateNewKey (nAccountIndex : Nat) (fInternal : Bool)
  | addKeyPubKey (secret : CKey)
  | encryptWallet (strWalletPassphrase : Bytes) (vMasterKey : { k : Bytes // k.length = walletCryptoKeySize }) (vchSalt : Bytes)
      (nDeriveIterations : Nat) (pool : List Bool)
  | lock (fAllowMixing : Bool)
  | unlock (strWalletPassphrase : Bytes) (fForMixingOnly : Bool) (pool : List Bool)

section
variable (P : Primitives) (makeNewKey : CWallet → Option CKey)

def keyNext (w : CWallet) : KeyCall → CWallet
  | .generateNewKey nAccountIndex fInternal => w.callGenerateNewKey P makeNewKey nAccountIndex fInternal
  | .addKeyPubKey secret => (w.addKeyPubKey P secret (P.getPubKey secret)).getD w
  | .encryptWallet strWalletPassphrase vMasterKey vchSalt nDeriveIterations pool =>
    (w.encryptWallet P makeNewKey strWalletPassphrase vMasterKey.1 vchSalt nDeriveIterations pool).getD w
  | .lock fAllowMixing => w.lock fAllowMixing
  | .unlock strWalletPassphrase fForMixingOnly pool => w.unlock P makeNewKey strWalletPassphrase fForMixingOnly pool

def keyStep (w : CWallet) (e : KeyCall) : Option CWallet := some (keyNext P makeNewKey w e)

end

/-! ## A whole wallet -/

/-- The entry's path leads from the seed to the private key of its public key. -/
def HDEntry (P : Primitives) (z : Secrets) (address : CKeyID) (h : CHDPubKey) : Prop :=
  h.pubkey = P.getPubKey ((z.chain P []).deriveChildExtKey P h.nAccountIndex (h.nChangeIndex != 0) h.nChild) ∧
    P.getID h.pubkey = address

structure PlainOk (P : Primitives) (z : Secrets) (w : CWallet) : Prop where
  used : w.fUseCrypto = false
  locked : w.vMasterKey = []
  keys : ∀ address key, w.mapKeys[address]? = some key → P.getID (P.getPubKey key) = address
  noCrypted : w.mapCryptedKeys = ∅
  noCryptedChain : w.cryptedHDChain = .null
  chain : w.hdChain.isNull = false → w.hdChain = z.chain P w.hdChain.mapAccounts
  hd : ∀ address h, w.mapHdPubKeys[address]? = some h → w.hdChain.isNull = false ∧ HDEntry P z address h

structure CryptedOk (P : Primitives) (z : Secrets) (mk : Bytes) (w : CWallet) : Prop where
  store : Crypted P z mk w.toCCryptoKeyStore
  hd : ∀ address h, w.mapHdPubKeys[address]? = some h → w.cryptedHDChain.isNull = false ∧ HDEntry P z address h

/-- The store `Lock` leaves of one that is not encrypted and holds no key of its own: nothing unlocks it. -/
structure Shut (w : CWallet) : Prop where
  used : w.fUseCrypto = true
  locked : w.vMasterKey = []
  noKeys : w.mapCryptedKeys = ∅
  noChain : w.cryptedHDChain.isNull = true

inductive Whole (P : Primitives) (z : Secrets) (w : CWallet) : Prop
  | plain (h : PlainOk P z w)
  | crypted (mk : Bytes) (h : CryptedOk P z mk w)
  | shut (h : Shut w)

structure WalletInv (P : Primitives) (z : Secrets) (w : CWallet) : Prop where
  whole : Whole P z w
  distinct : w.generated.Nodup
  had : ∀ pubkey ∈ w.generated, w.haveKey (P.getID pubkey) = true

structure Kept (P : Primitives) (z : Secrets) (w w' : CWallet) : Prop where
  whole : Whole P z w'
  have_mono : ∀ address, w.haveKey address = true → w'.haveKey address = true
  generated : w'.generated = w.generated

section
variable {P : Primitives} {z : Secrets} {mk : Bytes} {w w' w'' : CWallet}

theorem Kept.refl (h : Whole P z w) : Kept P z w w := ⟨h, fun _ => id, rfl⟩

theorem Kept.trans (h : Kept P z w w') (h' : Kept P z w' w'') : Kept P z w w'' :=
  ⟨h'.whole, fun a ha => h'.have_mono a (h.have_mono a ha), h'.generated.trans h.generated⟩

theorem WalletInv.of_kept (hi : WalletInv P z w) (h : Kept P z w w') : WalletInv P z w' :=
  ⟨h.whole, h.generated ▸ hi.distinct, fun p hp => h.have_mono _ (hi.had p (h.generated ▸ hp))⟩

theorem haveKey_plain (h : w.fUseCrypto = false) (address : CKeyID) :
    w.haveKey address = true ↔ w.mapHdPubKeys[address]?.isSome ∨ w.mapKeys[address]?.isSome := by
  simp [CWallet.haveKey, CCryptoKeyStore.haveKey, h, Std.TreeMap.isSome_getElem?_eq_contains]

theorem haveKey_crypted (h : w.fUseCrypto = true) (address : CKeyID) :
    w.haveKey address = true ↔ w.mapHdPubKeys[address]?.isSome ∨ w.mapCryptedKeys[address]?.isSome := by
  simp [CWallet.haveKey, CCryptoKeyStore.haveKey, h, Std.TreeMap.isSome_getElem?_eq_contains]

theorem Shut.isLocked (h : Shut w) (fForMixing : Bool) : w.isLocked fForMixing = true := by
  simp [CCryptoKeyStore.isLocked, h.used, h.locked]

theorem CryptedOk.open (h : CryptedOk P z mk w) (hopen : w.isLocked true = false) : w.vMasterKey = mk := by
  rcases h.store.locked with hm | hm
  · simp [CCryptoKeyStore.isLocked, h.store.used, hm] at hopen
  · exact hm

/-! ## Generating and importing keys -/

theorem nextChild_unknown {known : Nat → Bool} {turns nChildIndex n : Nat} (h : nextChild known turns nChildIndex = some n) :
    known n = false := by
  induction turns generalizing nChildIndex with
  | zero => cases h
  | succ turns ih =>
    rw [nextChild] at h
    split at h
    · exact ih h
    · rename_i hk
      cases h
      simpa using hk

theorem deriveNewChildKey_inv {nAccountIndex : Nat} {fInternal : Bool} {secret : CKey}
    (h : w.deriveNewChildKey P nAccountIndex fInternal = some (w', secret)) :
    ∃ hdChainTmp nChild acc hdChain s, w.currentHDChain.isNull = false ∧
      w.decryptHDChain P w.currentHDChain = some hdChainTmp ∧
      secret = hdChainTmp.deriveChildExtKey P nAccountIndex fInternal nChild ∧
      w.haveKey (P.getID (P.getPubKey secret)) = false ∧
      w.currentHDChain.setAccount nAccountIndex acc = some hdChain ∧
      (if w.fUseCrypto then w.setCryptedHDChain hdChain else w.setHDChain hdChain) = some s ∧
      w' = CWallet.addHDPubKey P { w with toCCryptoKeyStore := s } (P.getPubKey secret) nChild fInternal := by
  obtain ⟨c₀, hget, h⟩ := Option.bind_eq_some_iff.1 h
  obtain ⟨hdChainTmp, hdec, h⟩ := Option.bind_eq_some_iff.1 h
  have hnull : w.currentHDChain.isNull = false ∧ w.currentHDChain = c₀ := by
    simpa [CCryptoKeyStore.getHDChain] using hget
  split at h
  · cases h
  · obtain ⟨acc, -, h⟩ := Option.bind_eq_some_iff.1 h
    obtain ⟨nChild, hnext, h⟩ := Option.bind_eq_some_iff.1 h
    obtain ⟨hdChain, hset, h⟩ := Option.bind_eq_some_iff.1 h
    obtain ⟨s, hs, h⟩ := Option.map_eq_some_iff.1 h
    obtain ⟨rfl, rfl⟩ := Prod.mk.inj h
    have hunknown := nextChild_unknown hnext
    exact ⟨hdChainTmp, nChild, _, hdChain, s, hnull.1, hnull.2 ▸ hdec, rfl, hunknown, hset, hs, rfl⟩

theorem setAccount_eq {c c' : CHDChain} {n : Nat} {acc : CHDAccount} (h : c.setAccount n acc = some c') :
    c' = { c with mapAccounts := c'.mapAccounts } ∧ c'.isNull = c.isNull := by
  unfold CHDChain.setAccount at h
  split at h
  · cases h
  · cases h
    exact ⟨rfl, rfl⟩

theorem HDEntry.new (accs : List CHDAccount) (fInternal : Bool) (nChild : Nat) (id : Uint256) :
    HDEntry P z (P.getID (P.getPubKey ((z.chain P accs).deriveChildExtKey P 0 fInternal nChild)))
      ⟨P.getPubKey ((z.chain P accs).deriveChildExtKey P 0 fInternal nChild), nChild, id, 0, if fInternal then 1 else 0⟩ := by
  refine ⟨?_, rfl⟩
  cases fInternal <;> rfl

variable (hP : P.Sound)

theorem lookup_addHDPubKey {pubkey : CPubKey} {nChild : Nat} {fInternal : Bool} {address : CKeyID} {h : CHDPubKey}
    (hl : (w.addHDPubKey P pubkey nChild fInternal).mapHdPubKeys[address]? = some h) :
    (address = P.getID pubkey ∧ h = ⟨pubkey, nChild, w.currentHDChain.id, 0, if fInternal then 1 else 0⟩) ∨
      w.mapHdPubKeys[address]? = some h := by
  simp only [CWallet.addHDPubKey, lookup_insert] at hl
  split at hl
  · rename_i haddr
    exact .inl ⟨haddr, (Option.some.inj hl).symm⟩
  · exact .inr hl

theorem isSome_addHDPubKey (pubkey : CPubKey) (nChild : Nat) (fInternal : Bool) (address : CKeyID) :
    (w.addHDPubKey P pubkey nChild fInternal).mapHdPubKeys[address]?.isSome ↔
      address = P.getID pubkey ∨ w.mapHdPubKeys[address]?.isSome := by
  simp only [CWallet.addHDPubKey, lookup_insert]
  split
  · simp_all
  · simp_all

/-- A call that gives the wallet the key at `address`. -/
structure Gained (P : Primitives) (z : Secrets) (w w' : CWallet) (address : CKeyID) : Prop where
  whole : Whole P z w'
  have_iff : ∀ a, w'.haveKey a = true ↔ a = address ∨ w.haveKey a = true
  generated : w'.generated = w.generated

theorem Gained.kept {address : CKeyID} (h : Gained P z w w' address) : Kept P z w w' :=
  ⟨h.whole, fun a ha => (h.have_iff a).2 (.inr ha), h.generated⟩

theorem gained_addKeyPubKey (hw : Whole P z w) {secret : CKey} (h : w.addKeyPubKey P secret (P.getPubKey secret) = some w') :
    Gained P z w w' (P.getID (P.getPubKey secret)) := by
  obtain ⟨s, hs, rfl⟩ := Option.map_eq_some_iff.1 h
  rcases hw with hw | ⟨mk, hw⟩ | hw
  · cases (CCryptoKeyStore.addKeyPubKey_plain hw.used secret _).symm.trans hs
    refine ⟨.plain ⟨hw.used, hw.locked, ?_, hw.noCrypted, hw.noCryptedChain, hw.chain, hw.hd⟩, fun a => ?_, rfl⟩
    · intro address key hl
      simp only [lookup_insert] at hl
      split at hl
      · rename_i haddr
        cases hl
        exact haddr.symm
      · exact hw.keys address key hl
    · refine (haveKey_plain (by exact hw.used) a).trans ?_
      rw [haveKey_plain hw.used]
      simp only [lookup_insert]
      split <;> simp_all
  · cases hlock : w.isLocked true with
    | true => cases (CCryptoKeyStore.addKeyPubKey_locked hw.store.used hlock secret _).symm.trans hs
    | false =>
      have hopen := hw.open hlock
      have hsize : w.vMasterKey.length = walletCryptoKeySize := by rw [hopen, hw.store.size]
      cases (CCryptoKeyStore.addKeyPubKey_open hw.store.used hlock hsize secret _).symm.trans hs
      refine ⟨.crypted mk ⟨⟨hw.store.used, hw.store.size, hw.store.locked, ?_, hw.store.chain⟩, hw.hd⟩, fun a => ?_, rfl⟩
      · intro address entry hl
        simp only [lookup_insert] at hl
        split at hl
        · rename_i haddr
          cases hl
          exact ⟨secret, by rw [hopen], haddr.symm⟩
        · exact hw.store.keys address entry hl
      · refine (haveKey_crypted (by exact hw.store.used) a).trans ?_
        rw [haveKey_crypted hw.store.used]
        simp only [lookup_insert]
        split <;> simp_all
  · cases (CCryptoKeyStore.addKeyPubKey_locked hw.used (hw.isLocked true) secret _).symm.trans hs

include hP in
theorem gained_deriveNewChildKey (hw : Whole P z w) {fInternal : Bool} {secret : CKey}
    (h : w.deriveNewChildKey P 0 fInternal = some (w', secret)) :
    Gained P z w w' (P.getID (P.getPubKey secret)) ∧ w.haveKey (P.getID (P.getPubKey secret)) = false := by
  obtain ⟨hdChainTmp, nChild, acc, hdChain, s, hnull, hdec, hsecret, hnew, hacc, hs, rfl⟩ := deriveNewChildKey_inv h
  obtain ⟨haccs, haccnull⟩ := setAccount_eq hacc
  refine ⟨?_, hnew⟩
  rcases hw with hw | ⟨mk, hw⟩ | hw
  · have hcur : w.currentHDChain = w.hdChain := by simp [CCryptoKeyStore.currentHDChain, hw.used]
    rw [hcur] at hnull hdec haccs haccnull
    have hchain := hw.chain hnull
    have htmp : hdChainTmp = w.hdChain := by
      simpa [CCryptoKeyStore.decryptHDChain, hw.used, eq_comm] using hdec
    have hplain : hdChain.fCrypted = false := by
      rw [haccs, hchain]
      rfl
    rw [if_neg (by simp [hw.used]), CCryptoKeyStore.setHDChain_eq hw.used hplain] at hs
    cases hs
    refine ⟨.plain ⟨hw.used, hw.locked, hw.keys, hw.noCrypted, hw.noCryptedChain, fun _ => ?_, ?_⟩, fun a => ?_, rfl⟩
    · show hdChain = z.chain P hdChain.mapAccounts
      rw [haccs, hchain]
      rfl
    · intro address entry hl
      refine ⟨haccnull.trans hnull, ?_⟩
      rcases lookup_addHDPubKey hl with ⟨rfl, rfl⟩ | hl
      · rw [hsecret, htmp, hchain]
        exact HDEntry.new _ fInternal nChild _
      · exact (hw.hd address entry hl).2
    · refine (haveKey_plain (by exact hw.used) a).trans ?_
      rw [haveKey_plain hw.used, isSome_addHDPubKey, or_assoc]
      rfl
  · have hcur : w.currentHDChain = w.cryptedHDChain := by simp [CCryptoKeyStore.currentHDChain, hw.store.used]
    rw [hcur] at hnull haccs haccnull
    obtain ⟨hchain, hseed⟩ := hw.store.chain hnull
    have hcrypted : hdChain.fCrypted = true := by
      rw [haccs, hchain]
      rfl
    have hopen : w.vMasterKey = mk := by
      refine hw.store.locked.resolve_left fun hlocked => ?_
      simp [CCryptoKeyStore.decryptHDChain, hw.store.used, hlocked, decryptSecret, walletCryptoKeySize] at hdec
    have htmp : hdChainTmp = z.chain P w.cryptedHDChain.mapAccounts := by
      rw [hw.store.decryptHDChain hP hopen hnull] at hdec
      exact (Option.some.inj hdec).symm
    rw [if_pos hw.store.used, CCryptoKeyStore.setCryptedHDChain_eq hw.store.used hcrypted] at hs
    cases hs
    refine ⟨.crypted mk ⟨⟨hw.store.used, hw.store.size, hw.store.locked, hw.store.keys, fun _ => ⟨?_, hseed⟩⟩, ?_⟩,
      fun a => ?_, rfl⟩
    · show hdChain = z.cryptedChain P mk hdChain.mapAccounts
      rw [haccs, hchain]
      rfl
    · intro address entry hl
      refine ⟨haccnull.trans hnull, ?_⟩
      rcases lookup_addHDPubKey hl with ⟨rfl, rfl⟩ | hl
      · rw [hsecret, htmp]
        exact HDEntry.new _ fInternal nChild _
      · exact (hw.hd address entry hl).2
    · refine (haveKey_crypted (by exact hw.store.used) a).trans ?_
      rw [haveKey_crypted hw.store.used, isSome_addHDPubKey, or_assoc]
      rfl
  · have hcur : w.currentHDChain = w.cryptedHDChain := by simp [CCryptoKeyStore.currentHDChain, hw.used]
    rw [hcur, hw.noChain] at hnull
    cases hnull

structure Onward (P : Primitives) (z : Secrets) (w w' : CWallet) : Prop where
  inv : WalletInv P z w'
  have_mono : ∀ address, w.haveKey address = true → w'.haveKey address = true

theorem Onward.refl (hi : WalletInv P z w) : Onward P z w w := ⟨hi, fun _ => id⟩

theorem Onward.trans (h : Onward P z w w') (h' : Onward P z w' w'') : Onward P z w w'' :=
  ⟨h'.inv, fun a ha => h'.have_mono a (h.have_mono a ha)⟩

theorem WalletInv.onward (hi : WalletInv P z w) (h : Kept P z w w') : Onward P z w w' := ⟨hi.of_kept h, h.have_mono⟩

theorem WalletInv.generate (hi : WalletInv P z w) {pubkey : CPubKey} (hg : Gained P z w w' (P.getID pubkey))
    (hnew : w.haveKey (P.getID pubkey) = false) : Onward P z w { w' with generated := pubkey :: w'.generated } := by
  have hk := hi.of_kept hg.kept
  have hout : pubkey ∉ w'.generated := by
    intro hin
    have hhad := hi.had pubkey (hg.generated ▸ hin)
    rw [hnew] at hhad
    cases hhad
  refine ⟨⟨?_, List.nodup_cons.2 ⟨hout, hk.distinct⟩, ?_⟩, fun a ha => (hg.have_iff a).2 (.inr ha)⟩
  · rcases hg.whole with h | ⟨mk, h⟩ | h
    · exact .plain ⟨h.used, h.locked, h.keys, h.noCrypted, h.noCryptedChain, h.chain, h.hd⟩
    · exact .crypted mk ⟨h.store, h.hd⟩
    · exact .shut ⟨h.used, h.locked, h.noKeys, h.noChain⟩
  · intro p hp
    rcases List.mem_cons.1 hp with rfl | hp
    · exact (hg.have_iff _).2 (.inl rfl)
    · exact hk.had p hp

section
variable {makeNewKey : CWallet → Option CKey}
  (hnew : ∀ (w : CWallet) key, makeNewKey w = some key → w.haveKey (P.getID (P.getPubKey key)) = false)
include hP hnew

theorem WalletInv.callGenerateNewKey (hi : WalletInv P z w) {nAccountIndex : Nat}
    (hacc : w.isHDEnabled = true → nAccountIndex = 0)
    (fInternal : Bool) : Onward P z w (w.callGenerateNewKey P makeNewKey nAccountIndex fInternal) := by
  unfold CWallet.callGenerateNewKey
  cases hgen : w.generateNewKey P makeNewKey nAccountIndex fInternal with
  | none => exact .refl hi
  | some r =>
    unfold CWallet.generateNewKey at hgen
    split at hgen
    · rename_i hhd
      obtain ⟨⟨w', secret⟩, hder, rfl⟩ := Option.map_eq_some_iff.1 hgen
      rw [hacc hhd] at hder
      obtain ⟨hg, hfresh⟩ := gained_deriveNewChildKey hP hi.whole hder
      exact hi.generate hg hfresh
    · obtain ⟨secret, hdraw, hgen⟩ := Option.bind_eq_some_iff.1 hgen
      obtain ⟨w', hadd, rfl⟩ := Option.map_eq_some_iff.1 hgen
      exact hi.generate (gained_addKeyPubKey hi.whole hadd) (hnew w secret hdraw)

theorem WalletInv.topUpKeyPool (hi : WalletInv P z w) (pool : List Bool) : Onward P z w (w.topUpKeyPool P makeNewKey pool) := by
  unfold CWallet.topUpKeyPool
  split
  · exact .refl hi
  · rename_i hopen
    clear hopen
    induction pool generalizing w with
    | nil => exact .refl hi
    | cons fInternal pool ih =>
      have hfirst := hi.callGenerateNewKey hP hnew (fun _ => rfl) fInternal
      exact hfirst.trans (ih hfirst.inv)

end

/-! ## Locking, unlocking and encrypting -/

theorem CryptedOk.relock (hw : CryptedOk P z mk w) {k : Bytes} (hk : k = [] ∨ k = mk) (fOnlyMixing fChecked : Bool) :
    Kept P z w { w with vMasterKey := k, fOnlyMixingAllowed := fOnlyMixing, fDecryptionThoroughlyChecked := fChecked } :=
  ⟨.crypted mk ⟨hw.store.relock hk fOnlyMixing fChecked, hw.hd⟩, fun _ => id, rfl⟩

theorem kept_lock (hw : Whole P z w) (fAllowMixing : Bool) : Kept P z w (w.lock fAllowMixing) := by
  rcases hw with hw | ⟨mk, hw⟩ | hw
  · cases hkeys : w.mapKeys.isEmpty with
    | false =>
      have hset : w.setCrypted = none := by simp [CCryptoKeyStore.setCrypted, hw.used, hkeys]
      have hsame : w.lock fAllowMixing = w := by simp [CWallet.lock, CCryptoKeyStore.lock, hset]
      rw [hsame]
      exact .refl (.plain hw)
    | true =>
      have hset : w.setCrypted = some { w.toCCryptoKeyStore with fUseCrypto := true } := by
        simp [CCryptoKeyStore.setCrypted, hw.used, hkeys]
      have hlock : w.lock fAllowMixing = { w with fUseCrypto := true, fOnlyMixingAllowed := fAllowMixing } := by
        simp [CWallet.lock, CCryptoKeyStore.lock, hset, hw.locked]
      rw [hlock]
      refine ⟨.shut ⟨rfl, hw.locked, hw.noCrypted, ?_⟩, fun a ha => ?_, rfl⟩
      · rw [hw.noCryptedChain]
        rfl
      · have hnone : w.mapKeys[a]? = none := Std.TreeMap.getElem?_of_isEmpty hkeys
        rw [haveKey_plain hw.used, hnone] at ha
        exact (haveKey_crypted rfl a).2 (.inl (ha.resolve_right (by simp)))
  · have hlock : w.lock fAllowMixing =
        { w with vMasterKey := if fAllowMixing then w.vMasterKey else [], fOnlyMixingAllowed := fAllowMixing } := by
      simp [CWallet.lock, CCryptoKeyStore.lock, CCryptoKeyStore.setCrypted_of_used hw.store.used]
    rw [hlock]
    refine hw.relock ?_ fAllowMixing w.fDecryptionThoroughlyChecked
    cases fAllowMixing
    · exact .inl rfl
    · exact hw.store.locked
  · have hlock : w.lock fAllowMixing = { w with fOnlyMixingAllowed := fAllowMixing } := by
      simp [CWallet.lock, CCryptoKeyStore.lock, CCryptoKeyStore.setCrypted_of_used hw.used, hw.locked]
    rw [hlock]
    exact ⟨.shut ⟨hw.used, hw.locked, hw.noKeys, hw.noChain⟩, fun _ => id, rfl⟩

theorem Shut.unlock (hw : Shut w) (g : Bytes) (fForMixingOnly : Bool) :
    w.toCCryptoKeyStore.unlock P g fForMixingOnly = some (w.toCCryptoKeyStore, false) := by
  have hlist : w.mapCryptedKeys.toList = [] := by
    rw [hw.noKeys]
    rfl
  simp [CCryptoKeyStore.unlock, CCryptoKeyStore.setCrypted_of_used hw.used, hlist, CCryptoKeyStore.checkKeys, hw.noChain]

include hP in
theorem kept_tryMasterKeys (hw : Whole P z w) (hused : w.fUseCrypto = true) (strWalletPassphrase : Bytes) (fForMixingOnly : Bool)
    (l : List CMasterKey) : Kept P z w (w.tryMasterKeys P strWalletPassphrase fForMixingOnly l).1 := by
  induction l generalizing w with
  | nil => exact .refl hw
  | cons m rest ih =>
    unfold CWallet.tryMasterKeys
    split
    · exact .refl hw
    · split
      · exact ih hw hused
      · rename_i vMasterKey _
        have hunlock (s : CCryptoKeyStore) (b : Bool) (h : w.toCCryptoKeyStore.unlock P vMasterKey fForMixingOnly = some (s, b)) :
            Kept P z w { w with toCCryptoKeyStore := s } ∧ s.fUseCrypto = true := by
          rcases hw with hw | ⟨mk, hw⟩ | hw
          · rw [hw.used] at hused
            cases hused
          · obtain ⟨k, fOnlyMixing, fChecked, hk, rfl⟩ := hw.store.unlock hP vMasterKey fForMixingOnly s b h
            exact ⟨hw.relock hk fOnlyMixing fChecked, hused⟩
          · cases (hw.unlock vMasterKey fForMixingOnly).symm.trans h
            exact ⟨.refl (.shut hw), hused⟩
        split
        · exact .refl hw
        · rename_i s h
          exact (hunlock s true h).1
        · rename_i s h
          obtain ⟨hk, hused'⟩ := hunlock s false h
          exact hk.trans (ih hk.whole hused')

include hP in
theorem PlainOk.encrypted (hw : PlainOk P z w) (hmk : mk.length = walletCryptoKeySize) {s s' : CCryptoKeyStore}
    (hkeys : w.encryptKeys P mk = some s)
    (hchain : (if w.currentHDChain.isNull then some s
      else (s.encryptHDChain P mk).bind fun s => s.getHDChain.bind fun hdChainCrypted =>
        if w.currentHDChain.id = hdChainCrypted.id ∧ w.currentHDChain.getSeedHash P ≠ hdChainCrypted.getSeedHash P then
          s.setCryptedHDChain hdChainCrypted
        else none) = some s') (mapMasterKeys : List CMasterKey) :
    Kept P z w { w with toCCryptoKeyStore := s', mapMasterKeys := mapMasterKeys } := by
  obtain ⟨m, hm, hlookup⟩ := encryptKeys_spec hmk hw.used hw.noCrypted hw.keys
  cases hm.symm.trans hkeys
  have hcur : w.currentHDChain = w.hdChain := by simp [CCryptoKeyStore.currentHDChain, hw.used]
  rw [hcur] at hchain
  have hentries : ∀ address entry, m[address]? = some entry → KeyEntry P mk address entry := by
    intro address entry h
    rw [hlookup address] at h
    obtain ⟨key, hkey, rfl⟩ := Option.map_eq_some_iff.1 h
    exact ⟨key, rfl, hw.keys address key hkey⟩
  have hhave (w' : CWallet) (hused : w'.fUseCrypto = true) (hhd : w'.mapHdPubKeys = w.mapHdPubKeys) (hm : w'.mapCryptedKeys = m)
      (a : CKeyID) (ha : w.haveKey a = true) : w'.haveKey a = true := by
    rw [haveKey_plain hw.used] at ha
    rw [haveKey_crypted hused, hhd, hm, hlookup, Option.isSome_map]
    exact ha
  by_cases hnull : w.hdChain.isNull = true
  · rw [if_pos hnull] at hchain
    cases hchain
    refine ⟨.crypted mk ⟨⟨rfl, hmk, .inl hw.locked, hentries, fun h => ?_⟩, fun address h hl => ?_⟩, ?_, rfl⟩
    · rw [hw.noCryptedChain] at h
      cases h
    · exact absurd (hw.hd address h hl).1 (by simp [hnull])
    · exact hhave _ rfl rfl rfl
  · have hnull : w.hdChain.isNull = false := by simpa using hnull
    have hspec := encryptHDChain_spec (s := { w.toCCryptoKeyStore with fUseCrypto := true, mapKeys := ∅, mapCryptedKeys := m })
      hP hmk rfl hw.noCryptedChain (hw.chain hnull) hnull
    have hseed := Secrets.chain_isNull _ ((hw.chain hnull) ▸ hnull)
    rw [if_neg (by simp [hnull]), hspec, Option.bind_some] at hchain
    obtain ⟨c, hc, hchain⟩ := Option.bind_eq_some_iff.1 hchain
    split at hchain
    · have hcrypted : (z.cryptedChain P mk w.hdChain.mapAccounts).isNull = false ∧
        z.cryptedChain P mk w.hdChain.mapAccounts = c := by
        simpa [CCryptoKeyStore.getHDChain, CCryptoKeyStore.currentHDChain] using hc
      obtain ⟨hcnull, rfl⟩ := hcrypted
      rw [CCryptoKeyStore.setCryptedHDChain_eq rfl rfl] at hchain
      cases hchain
      refine ⟨.crypted mk ⟨⟨rfl, hmk, .inl hw.locked, hentries, fun _ => ⟨rfl, hseed.1⟩⟩, fun address h hl => ?_⟩, ?_, rfl⟩
      · exact ⟨hcnull, (hw.hd address h hl).2⟩
      · exact hhave _ rfl rfl rfl
    · cases hchain

section
variable {makeNewKey : CWallet → Option CKey}
  (hnew : ∀ (w : CWallet) key, makeNewKey w = some key → w.haveKey (P.getID (P.getPubKey key)) = false)
include hP hnew

theorem WalletInv.unlock (hi : WalletInv P z w) (strWalletPassphrase : Bytes) (fForMixingOnly : Bool) (pool : List Bool) :
    Onward P z w (w.unlock P makeNewKey strWalletPassphrase fForMixingOnly pool) := by
  unfold CWallet.unlock
  split
  · exact .refl hi
  · rename_i hlocked
    have hused : w.fUseCrypto = true := by
      by_contra h
      simp [CCryptoKeyStore.isLocked, h] at hlocked
    have hk := hi.onward (kept_tryMasterKeys hP hi.whole hused strWalletPassphrase fForMixingOnly w.mapMasterKeys)
    show Onward P z w (if _ then _ else _)
    split
    · exact hk.trans (hk.inv.topUpKeyPool hP hnew pool)
    · exact hk

theorem WalletInv.encryptWallet (hi : WalletInv P z w) (strWalletPassphrase : Bytes)
    (vMasterKey : { k : Bytes // k.length = walletCryptoKeySize }) (vchSalt : Bytes) (nDeriveIterations : Nat)
    (pool : List Bool) :
    Onward P z w ((w.encryptWallet P makeNewKey strWalletPassphrase vMasterKey.1 vchSalt nDeriveIterations pool).getD w) := by
  cases hrun : w.encryptWallet P makeNewKey strWalletPassphrase vMasterKey.1 vchSalt nDeriveIterations pool with
  | none => exact .refl hi
  | some w' =>
    unfold CWallet.encryptWallet at hrun
    split at hrun
    · cases hrun
    · rename_i hplain
      obtain ⟨⟨vchKey, vchIV⟩, -, hrun⟩ := Option.bind_eq_some_iff.1 hrun
      obtain ⟨s, hkeys, hrun⟩ := Option.bind_eq_some_iff.1 hrun
      obtain ⟨s', hchain, rfl⟩ := Option.map_eq_some_iff.1 hrun
      rcases hi.whole with hw | ⟨mk, hw⟩ | hw
      · have henc := hi.onward (hw.encrypted hP vMasterKey.2 hkeys hchain
          (w.mapMasterKeys ++ [⟨P.encrypt vchKey vchIV vMasterKey.1, vchSalt, nDeriveIterations⟩]))
        have hlock := henc.trans (henc.inv.onward (kept_lock henc.inv.whole false))
        have hopen := hlock.trans (hlock.inv.unlock hP hnew strWalletPassphrase false [])
        have hpool := hopen.trans (hopen.inv.topUpKeyPool hP hnew pool)
        exact hpool.trans (hpool.inv.onward (kept_lock hpool.inv.whole false))
      · exact absurd hw.store.used hplain
      · exact absurd hw.used hplain

def FirstAccount (w : CWallet) : KeyCall → Prop
  | .generateNewKey nAccountIndex _ => w.isHDEnabled = true → nAccountIndex = 0
  | .addKeyPubKey _ => True
  | .encryptWallet _ _ _ _ _ => True
  | .lock _ => True
  | .unlock _ _ _ => True

theorem step_inv (hi : WalletInv P z w) (e : KeyCall) (hfirst : FirstAccount w e) : Onward P z w (keyNext P makeNewKey w e) := by
  cases e with
  | generateNewKey nAccountIndex fInternal => exact hi.callGenerateNewKey hP hnew hfirst fInternal
  | addKeyPubKey secret =>
    show Onward P z w ((w.addKeyPubKey P secret (P.getPubKey secret)).getD w)
    cases hadd : w.addKeyPubKey P secret (P.getPubKey secret) with
    | none => exact .refl hi
    | some w' => exact hi.onward (gained_addKeyPubKey hi.whole hadd).kept
  | encryptWallet strWalletPassphrase vMasterKey vchSalt nDeriveIterations pool =>
    exact hi.encryptWallet hP hnew strWalletPassphrase vMasterKey vchSalt nDeriveIterations pool
  | lock fAllowMixing => exact hi.onward (kept_lock hi.whole fAllowMixing)
  | unlock strWalletPassphrase fForMixingOnly pool => exact hi.unlock hP hnew strWalletPassphrase fForMixingOnly pool

end

/-! ## Reading keys back -/

theorem getKey_of_entry {address : CKeyID} {h : CHDPubKey} (hl : w.mapHdPubKeys[address]? = some h) {accs : List CHDAccount}
    (hnull : w.currentHDChain.isNull = false) (hdec : w.decryptHDChain P w.currentHDChain = some (z.chain P accs))
    (hentry : HDEntry P z address h) :
    ∃ key, w.getKey P address = some key ∧ w.getPubKey P address = some (P.getPubKey key) ∧
      P.getID (P.getPubKey key) = address := by
  refine ⟨(z.chain P []).deriveChildExtKey P h.nAccountIndex (h.nChangeIndex != 0) h.nChild, ?_, ?_, ?_⟩
  · have hget : w.getHDChain = some w.currentHDChain := by simp [CCryptoKeyStore.getHDChain, hnull]
    simp only [CWallet.getKey, hl, hget, Option.bind_some, hdec]
    exact if_neg fun h => h rfl
  · rw [CWallet.getPubKey, hl]
    exact congrArg some hentry.1
  · rw [← hentry.1]
    exact hentry.2

include hP in
theorem Whole.getKey (hw : Whole P z w) (hopen : w.isLocked true = false) {address : CKeyID} (hhave : w.haveKey address = true) :
    ∃ key, w.getKey P address = some key ∧ w.getPubKey P address = some (P.getPubKey key) ∧
      P.getID (P.getPubKey key) = address := by
  rcases hw with hw | ⟨mk, hw⟩ | hw
  · cases hl : w.mapHdPubKeys[address]? with
    | some h =>
      obtain ⟨hnull, hentry⟩ := hw.hd address h hl
      have hcur : w.currentHDChain = w.hdChain := by simp [CCryptoKeyStore.currentHDChain, hw.used]
      have hdec : w.decryptHDChain P w.currentHDChain = some (z.chain P w.hdChain.mapAccounts) := by
        rw [hcur, ← hw.chain hnull]
        simp [CCryptoKeyStore.decryptHDChain, hw.used]
      exact getKey_of_entry hl (by rw [hcur, hnull]) hdec hentry
    | none =>
      rw [haveKey_plain hw.used, hl] at hhave
      obtain ⟨key, hkey⟩ := Option.isSome_iff_exists.1 (hhave.resolve_left (by simp))
      refine ⟨key, ?_, ?_, hw.keys address key hkey⟩
      · simp [CWallet.getKey, hl, CCryptoKeyStore.getKey, hw.used, hkey]
      · simp [CWallet.getPubKey, hl, CCryptoKeyStore.getPubKey, hw.used, hkey]
  · have hmk := hw.open hopen
    cases hl : w.mapHdPubKeys[address]? with
    | some h =>
      obtain ⟨hnull, hentry⟩ := hw.hd address h hl
      have hcur : w.currentHDChain = w.cryptedHDChain := by simp [CCryptoKeyStore.currentHDChain, hw.store.used]
      exact getKey_of_entry hl (by rw [hcur, hnull]) (hw.store.decryptHDChain hP hmk hnull _) hentry
    | none =>
      rw [haveKey_crypted hw.store.used, hl] at hhave
      obtain ⟨entry, hc⟩ := Option.isSome_iff_exists.1 (hhave.resolve_left (by simp))
      obtain ⟨key, hdec, hpub, hid⟩ := (hw.store.keys address entry hc).decrypt hP hw.store.size
      refine ⟨key, ?_, ?_, hid⟩
      · simp [CWallet.getKey, hl, CCryptoKeyStore.getKey, hw.store.used, hc, hmk, hdec]
      · simp [CWallet.getPubKey, hl, CCryptoKeyStore.getPubKey, hw.store.used, hc, hpub]
  · rw [hw.isLocked] at hopen
    cases hopen

include hP in
theorem Whole.secrets (hw : Whole P z w) {c c' : CHDChain} (hget : w.getHDChain = some c)
    (hdec : w.decryptHDChain P c = some c') :
    c'.vchSeed = z.seed ∧ c'.vchMnemonic = z.mnemonic ∧ c'.vchMnemonicPassphrase = z.mnemonicPassphrase := by
  have hcur : w.currentHDChain.isNull = false ∧ w.currentHDChain = c := by simpa [CCryptoKeyStore.getHDChain] using hget
  obtain ⟨hnull, rfl⟩ := hcur
  rcases hw with hw | ⟨mk, hw⟩ | hw
  · have hcur : w.currentHDChain = w.hdChain := by simp [CCryptoKeyStore.currentHDChain, hw.used]
    rw [hcur] at hdec hnull
    have hsame : w.hdChain = c' := by simpa [CCryptoKeyStore.decryptHDChain, hw.used] using hdec
    rw [← hsame, hw.chain hnull]
    exact ⟨rfl, rfl, rfl⟩
  · have hcur : w.currentHDChain = w.cryptedHDChain := by simp [CCryptoKeyStore.currentHDChain, hw.store.used]
    rw [hcur] at hnull
    have hopen : w.vMasterKey = mk := by
      refine hw.store.locked.resolve_left fun hlocked => ?_
      simp [CCryptoKeyStore.decryptHDChain, hw.store.used, hlocked, decryptSecret, walletCryptoKeySize] at hdec
    rw [hw.store.decryptHDChain hP hopen hnull] at hdec
    cases hdec
    exact ⟨rfl, rfl, rfl⟩
  · simp [CCryptoKeyStore.currentHDChain, hw.used, hw.noChain] at hnull

/-- What is promised of the keys at any time: each that the wallet has comes back as the private key of the public key it
    names, and so do the secrets of the chain. -/
structure KeysSound (P : Primitives) (z : Secrets) (w : CWallet) : Prop where
  distinct : w.generated.Nodup
  had : ∀ pubkey ∈ w.generated, w.haveKey (P.getID pubkey) = true
  getKey : w.isLocked true = false → ∀ address, w.haveKey address = true →
    ∃ key, w.getKey P address = some key ∧ w.getPubKey P address = some (P.getPubKey key)
  secrets : ∀ c c', w.getHDChain = some c → w.decryptHDChain P c = some c' →
    c'.vchSeed = z.seed ∧ c'.vchMnemonic = z.mnemonic ∧ c'.vchMnemonicPassphrase = z.mnemonicPassphrase

include hP in
theorem WalletInv.sound (hi : WalletInv P z w) : KeysSound P z w where
  distinct := hi.distinct
  had := hi.had
  getKey := fun hopen address hhave => by
    obtain ⟨key, hkey, hpub, -⟩ := hi.whole.getKey hP hopen hhave
    exact ⟨key, hkey, hpub⟩
  secrets := fun _ _ hget hdec => hi.whole.secrets hP hget hdec

include hP in
theorem getKey_same (hw : Whole P z w) (hw' : Whole P z w') (hopen : w.isLocked true = false) (hopen' : w'.isLocked true = false)
    {address : CKeyID} (hhave : w.haveKey address = true) (hhave' : w'.haveKey address = true) :
    w'.getKey P address = w.getKey P address := by
  obtain ⟨key, hkey, -, hid⟩ := hw.getKey hP hopen hhave
  obtain ⟨key', hkey', -, hid'⟩ := hw'.getKey hP hopen' hhave'
  have hsame : key' = key := hP.pubKey_inj (hP.id_inj (hid'.trans hid.symm))
  rw [hkey, hkey', hsame]

variable {makeNewKey : CWallet → Option CKey}
  (hnew : ∀ (w : CWallet) key, makeNewKey w = some key → w.haveKey (P.getID (P.getPubKey key)) = false)

include hP hnew in
/-- The run lemma. `w` is any state of the run, `w'` any later one: the wallet may be encrypted in between. -/
theorem keys_sound_of_first_account {w₀ : CWallet} (hi : WalletInv P z w₀) (es es' : List KeyCall)
    (hm : Meets (keyStep P makeNewKey) FirstAccount w₀ (es ++ es')) :
    ∃ w w', run (keyStep P makeNewKey) w₀ es = some w ∧ run (keyStep P makeNewKey) w es' = some w' ∧
      KeysSound P z w ∧ KeysSound P z w' ∧
      ∀ address, w.haveKey address = true → w'.haveKey address = true ∧
        (w.isLocked true = false → w'.isLocked true = false → w'.getKey P address = w.getKey P address) := by
  have htotal : ∀ w e, keyStep P makeNewKey w e = some (keyNext P makeNewKey w e) := fun _ _ => rfl
  have honward (w₁ : CWallet) (l : List KeyCall) (hi₁ : WalletInv P z w₁) (hm₁ : Meets (keyStep P makeNewKey) FirstAccount w₁ l) :
      Onward P z w₁ (l.foldl (keyNext P makeNewKey) w₁) := by
    refine run_inv_of_meets (Onward P z w₁) (fun w e w' hw hfirst hstep => ?_) hm₁ (.refl hi₁) (run_total htotal w₁ l)
    cases hstep
    exact hw.trans (step_inv hP hnew hw.inv e hfirst)
  obtain ⟨hfirst, hrest⟩ := meets_append.1 hm
  have hrun := run_total htotal w₀ es
  have hw := honward w₀ es hi hfirst
  have hw' := honward _ es' hw.inv (hrest _ hrun)
  refine ⟨_, _, hrun, run_total htotal _ es', hw.inv.sound hP, hw'.inv.sound hP, fun address hhave => ?_⟩
  have hhave' := hw'.have_mono address hhave
  exact ⟨hhave', fun hopen hopen' => getKey_same hP hw.inv.whole hw'.inv.whole hopen hopen' hhave hhave'⟩

end

/-! ## A wallet with two accounts -/

def byteNumber : Bytes → Nat
  | [] => 0
  | b :: bs => b.toNat + 1 + 256 * byteNumber bs

theorem byteNumber_inj : byteNumber.Injective := by
  intro as bs h
  induction as generalizing bs with
  | nil =>
    cases bs with
    | nil => rfl
    | cons b bs =>
      simp only [byteNumber] at h
      omega
  | cons a as ih =>
    cases bs with
    | nil =>
      simp only [byteNumber] at h
      omega
    | cons b bs =>
      have ha := a.toNat_lt
      have hb := b.toNat_lt
      simp only [byteNumber] at h
      have hhead : a.toNat = b.toNat := by omega
      have htail : byteNumber as = byteNumber bs := by omega
      rw [UInt8.toNat_inj.1 hhead, ih htail]

def fourBytes (n : Nat) : Bytes := [n, n / 256, n / 256 ^ 2, n / 256 ^ 3].map UInt8.ofNat

def pathKey (path : List Nat) : CKey := ⟨(path.flatMap fourBytes ++ List.replicate 32 0).take 32, true, by simp⟩

/-- A cipher that puts its key and vector before the plaintext, and hashes that number the strings. -/
def openPrimitives : Primitives where
  encrypt := fun k iv m => k ++ iv ++ [1] ++ m
  decrypt := fun k iv c => if c.take (k ++ iv ++ [1]).length = k ++ iv ++ [1] then some (c.drop (k ++ iv ++ [1]).length) else none
  setKeyFromPassphrase := fun pass salt _ => some (pass, salt)
  hash := byteNumber
  getPubKey := fun key => if key.fCompressed then 2 :: key.vch else 4 :: key.vch ++ List.replicate 32 0
  verifyPubKey := fun key pubkey => pubkey == if key.fCompressed then 2 :: key.vch else 4 :: key.vch ++ List.replicate 32 0
  getID := byteNumber
  getHash := byteNumber
  derive := fun _ path => pathKey path
  extCoinType := 5

theorem openPrimitives_sound : openPrimitives.Sound where
  decrypt_encrypt := fun k iv m => by simp only [openPrimitives, List.take_left, List.drop_left, if_true]
  decrypt_other := fun k k' iv m hne h => by
    simp only [openPrimitives] at h
    split at h
    · rename_i htake
      have hdrop := Option.some.inj h
      have hall := List.take_append_drop (k' ++ iv ++ [1]).length (k ++ iv ++ [1] ++ m)
      rw [htake, hdrop] at hall
      simp only [List.append_assoc, List.append_cancel_right_eq] at hall
      exact hne hall
    · cases h
  encrypt_ne_nil := fun k iv m => by simp [openPrimitives]
  hash_inj := byteNumber_inj
  id_inj := byteNumber_inj
  pubKey_inj := fun a b h => by
    obtain ⟨va, ca, sa⟩ := a
    obtain ⟨vb, cb, sb⟩ := b
    cases ca <;> cases cb <;> simp_all [openPrimitives]
  verify_iff := fun key pubkey => by simp [openPrimitives]
  pubKey_size := fun key => by
    obtain ⟨v, c, hv⟩ := key
    cases c <;> simp [openPrimitives, hv]

def twoAccounts : CWallet where
  mapKeys := ∅
  hdChain := (Secrets.mk [7] [8] []).chain openPrimitives [⟨0, 0⟩, ⟨0, 0⟩]
  mapCryptedKeys := ∅
  cryptedHDChain := .null
  vMasterKey := []
  fUseCrypto := false
  fOnlyMixingAllowed := false
  fDecryptionThoroughlyChecked := false
  mapHdPubKeys := ∅
  mapMasterKeys := []
  generated := []

theorem twoAccounts_inv : WalletInv openPrimitives ⟨[7], [8], []⟩ twoAccounts where
  whole := .plain ⟨rfl, rfl, fun _ _ h => by simp [twoAccounts] at h, rfl, rfl, fun _ => rfl,
    fun _ _ h => by simp [twoAccounts] at h⟩
  distinct := List.nodup_nil
  had := fun _ h => absurd h List.not_mem_nil

/-- It generates a key, is encrypted, locked and unlocked, and generates another. -/
theorem keys_sound_of_first_account_sample :
    ∃ w w', run (keyStep openPrimitives fun _ => none) twoAccounts
        [.generateNewKey 0 false, .encryptWallet [1] ⟨List.replicate 32 9, rfl⟩ [2] 25000 [true]] = some w ∧
      run (keyStep openPrimitives fun _ => none) w [.lock false, .unlock [1] false [], .generateNewKey 0 true] = some w' ∧
      KeysSound openPrimitives ⟨[7], [8], []⟩ w ∧ KeysSound openPrimitives ⟨[7], [8], []⟩ w' ∧
      ∀ address, w.haveKey address = true → w'.haveKey address = true ∧
        (w.isLocked true = false → w'.isLocked true = false →
          w'.getKey openPrimitives address = w.getKey openPrimitives address) := by
  refine keys_sound_of_first_account openPrimitives_sound (fun _ _ h => by cases h) twoAccounts_inv
    [.generateNewKey 0 false, .encryptWallet [1] ⟨List.replicate 32 9, rfl⟩ [2] 25000 [true]]
    [.lock false, .unlock [1] false [], .generateNewKey 0 true] ?_
  exact ⟨fun _ => rfl, fun _ _ => ⟨trivial, fun _ _ => ⟨trivial, fun _ _ => ⟨trivial, fun _ _ => ⟨fun _ => rfl, fun _ _ => trivial⟩⟩⟩⟩⟩

def firstKey (nAccountIndex : Nat) : CKey := pathKey [44 ||| 0x80000000, 5 ||| 0x80000000, nAccountIndex ||| 0x80000000, 0, 0]

/-- The first key of account 1 is derived again as the first of account 0. -/
theorem other_account_is_lost :
    ∃ w, run (keyStep openPrimitives fun _ => none) twoAccounts [.generateNewKey 1 false] = some w ∧
      w.generated = [openPrimitives.getPubKey (firstKey 1)] ∧ w.isLocked true = false ∧
      w.haveKey (openPrimitives.getID (openPrimitives.getPubKey (firstKey 1))) = true ∧
      w.getPubKey openPrimitives (openPrimitives.getID (openPrimitives.getPubKey (firstKey 1))) =
        some (openPrimitives.getPubKey (firstKey 1)) ∧
      w.getKey openPrimitives (openPrimitives.getID (openPrimitives.getPubKey (firstKey 1))) = some (firstKey 0) ∧
      openPrimitives.getPubKey (firstKey 0) ≠ openPrimitives.getPubKey (firstKey 1) := by
  refine ⟨_, rfl, ?_, ?_, ?_, ?_, ?_, ?_⟩
  all_goals decide +kernel

end Zumy.HDWallet
