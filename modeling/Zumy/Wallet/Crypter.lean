/-
  Zumy.Wallet.Crypter — keys and the HD chain in a key store that may be encrypted
  (`wallet/crypter.cpp`, `keystore.cpp`, `hdchain.cpp`).

  AES, the hashes, the elliptic curve and BIP32 derivation are `Primitives`; what is used
  of them is `Primitives.Sound`. A function of the source that answers false or throws is
  `none`; `assert(false)` is `none` too. Watch-only keys are left out: nobody has their
  private keys.

  An account of the chain is its place in the list `mapAccounts`.

  - `decryptKey_encrypted`, `Crypted.decryptHDChain`: what was encrypted under the master
    key comes back under it.
  - `encryptKeys_spec`, `encryptHDChain_spec`: what encryption leaves in the store.
-/
import Zumy.Lib.OrdMap
import Zumy.Primitives

namespace Zumy.HDWallet

open Zumy.Lib

abbrev Bytes := List UInt8
abbrev CKeyID := Nat

def walletCryptoKeySize : Nat := 32

structure CKey where
  vch : Bytes
  fCompressed : Bool
  size : vch.length = 32
  deriving DecidableEq

/-- What the wallet calls: AES-256-CBC under a key and an initial vector, the passphrase's key
    and vector, `Hash`, the public key of a private one, and the key at a path below a seed. -/
structure Primitives where
  encrypt : Bytes → Bytes → Bytes → Bytes
  decrypt : Bytes → Bytes → Bytes → Option Bytes
  setKeyFromPassphrase : Bytes → Bytes → Nat → Option (Bytes × Bytes)
  hash : Bytes → Uint256
  getPubKey : CKey → CPubKey
  verifyPubKey : CKey → CPubKey → Bool
  getID : CPubKey → CKeyID
  getHash : CPubKey → Uint256
  derive : Bytes → List Nat → CKey
  extCoinType : Nat

structure Primitives.Sound (P : Primitives) : Prop where
  decrypt_encrypt : ∀ k iv m, P.decrypt k iv (P.encrypt k iv m) = some m
  /-- Another key does not decrypt to the plaintext. -/
  decrypt_other : ∀ k k' iv m, k' ≠ k → P.decrypt k' iv (P.encrypt k iv m) ≠ some m
  /-- The ciphertext is padded. -/
  encrypt_ne_nil : ∀ k iv m, P.encrypt k iv m ≠ []
  hash_inj : P.hash.Injective
  id_inj : P.getID.Injective
  pubKey_inj : P.getPubKey.Injective
  verify_iff : ∀ key pubkey, P.verifyPubKey key pubkey = true ↔ pubkey = P.getPubKey key
  pubKey_size : ∀ key, (P.getPubKey key).length = if key.fCompressed then 33 else 65

def isCompressed (pubkey : CPubKey) : Bool := pubkey.length == 33

def chIV (nIV : Uint256) : Bytes := (List.range 16).map fun i => UInt8.ofNat (nIV / 256 ^ i)

/-! ## The HD chain -/

structure CHDAccount where
  nExternalChainCounter : Nat
  nInternalChainCounter : Nat
  deriving DecidableEq

structure CHDChain where
  id : Uint256
  fCrypted : Bool
  vchSeed : Bytes
  vchMnemonic : Bytes
  vchMnemonicPassphrase : Bytes
  mapAccounts : List CHDAccount
  deriving DecidableEq

namespace CHDChain

/-- `SetNull`, with its default blank account. -/
def null : CHDChain := ⟨0, false, [], [], [], [⟨0, 0⟩]⟩

def isNull (c : CHDChain) : Bool := c.vchSeed.isEmpty || c.id == 0

/-- `SetSeed` without a new id. -/
def setSeed (c : CHDChain) (vchSeed : Bytes) : Option CHDChain :=
  let c := { c with vchSeed := vchSeed }
  if c.isNull then none else some c

/-- `SetMnemonic` without a new id. -/
def setMnemonic (c : CHDChain) (vchMnemonic vchMnemonicPassphrase : Bytes) : Option CHDChain :=
  let c := { c with vchMnemonic := vchMnemonic, vchMnemonicPassphrase := vchMnemonicPassphrase }
  if c.isNull then none else some c

def getMnemonic (c : CHDChain) : Option (Bytes × Bytes) :=
  if c.vchMnemonic.isEmpty then none else some (c.vchMnemonic, c.vchMnemonicPassphrase)

def getAccount (c : CHDChain) (nAccountIndex : Nat) : Option CHDAccount :=
  if c.mapAccounts.length - 1 < nAccountIndex then none else c.mapAccounts[nAccountIndex]?

def setAccount (c : CHDChain) (nAccountIndex : Nat) (acc : CHDAccount) : Option CHDChain :=
  if c.mapAccounts.length - 1 < nAccountIndex then none
  else some { c with mapAccounts := c.mapAccounts.set nAccountIndex acc }

section
variable (P : Primitives)

def getSeedHash (c : CHDChain) : Uint256 := P.hash c.vchSeed

/-- The key at `m/44'/coin_type'/account'/change/address_index`. -/
def deriveChildExtKey (c : CHDChain) (nAccountIndex : Nat) (fInternal : Bool) (nChildIndex : Nat) : CKey :=
  P.derive c.vchSeed
    [44 ||| 0x80000000, P.extCoinType ||| 0x80000000, nAccountIndex ||| 0x80000000, if fInternal then 1 else 0, nChildIndex]

end

end CHDChain

/-! ## The key store -/

structure CCryptoKeyStore where
  mapKeys : Map CKeyID CKey
  hdChain : CHDChain
  mapCryptedKeys : Map CKeyID (CPubKey × Bytes)
  cryptedHDChain : CHDChain
  /-- Empty while the store is locked. -/
  vMasterKey : Bytes
  fUseCrypto : Bool
  fOnlyMixingAllowed : Bool
  fDecryptionThoroughlyChecked : Bool

section
variable (P : Primitives)

def encryptSecret (vMasterKey vchPlaintext : Bytes) (nIV : Uint256) : Option Bytes :=
  if vMasterKey.length = walletCryptoKeySize then some (P.encrypt vMasterKey (chIV nIV) vchPlaintext) else none

def decryptSecret (vMasterKey vchCiphertext : Bytes) (nIV : Uint256) : Option Bytes :=
  if vMasterKey.length = walletCryptoKeySize then P.decrypt vMasterKey (chIV nIV) vchCiphertext else none

def encryptIfAny (vMasterKey vchPlaintext : Bytes) (nIV : Uint256) : Option Bytes :=
  if vchPlaintext.isEmpty then some [] else encryptSecret P vMasterKey vchPlaintext nIV

def decryptIfAny (vMasterKey vchCiphertext : Bytes) (nIV : Uint256) : Option Bytes :=
  if vchCiphertext.isEmpty then some [] else decryptSecret P vMasterKey vchCiphertext nIV

def decryptKey (vMasterKey vchCryptedSecret : Bytes) (vchPubKey : CPubKey) : Option CKey :=
  (decryptSecret P vMasterKey vchCryptedSecret (P.getHash vchPubKey)).bind fun vchSecret =>
    if h : vchSecret.length = 32 then
      let key : CKey := ⟨vchSecret, isCompressed vchPubKey, h⟩
      if P.verifyPubKey key vchPubKey then some key else none
    else none

end

namespace CCryptoKeyStore

def isLocked (s : CCryptoKeyStore) (fForMixing : Bool) : Bool :=
  if !s.fUseCrypto then false
  else if !fForMixing && s.fOnlyMixingAllowed then true
  else s.vMasterKey.isEmpty

def setCrypted (s : CCryptoKeyStore) : Option CCryptoKeyStore :=
  if s.fUseCrypto then some s
  else if s.mapKeys.isEmpty then some { s with fUseCrypto := true }
  else none

def lock (s : CCryptoKeyStore) (fAllowMixing : Bool) : CCryptoKeyStore :=
  s.setCrypted.elim s fun s =>
    { s with vMasterKey := if fAllowMixing then s.vMasterKey else [], fOnlyMixingAllowed := fAllowMixing }

/-- The chain `GetHDChain` copies out. -/
def currentHDChain (s : CCryptoKeyStore) : CHDChain := if s.fUseCrypto then s.cryptedHDChain else s.hdChain

def getHDChain (s : CCryptoKeyStore) : Option CHDChain :=
  if s.currentHDChain.isNull then none else some s.currentHDChain

def setHDChain (s : CCryptoKeyStore) (chain : CHDChain) : Option CCryptoKeyStore :=
  if s.fUseCrypto || chain.fCrypted then none else some { s with hdChain := chain }

def setCryptedHDChain (s : CCryptoKeyStore) (chain : CHDChain) : Option CCryptoKeyStore :=
  s.setCrypted.bind fun s => if chain.fCrypted then some { s with cryptedHDChain := chain } else none

def haveKey (s : CCryptoKeyStore) (address : CKeyID) : Bool :=
  if s.fUseCrypto then s.mapCryptedKeys.contains address else s.mapKeys.contains address

section
variable (P : Primitives)

def addCryptedKey (s : CCryptoKeyStore) (vchPubKey : CPubKey) (vchCryptedSecret : Bytes) : Option CCryptoKeyStore :=
  s.setCrypted.map fun s =>
    { s with mapCryptedKeys := s.mapCryptedKeys.insert (P.getID vchPubKey) (vchPubKey, vchCryptedSecret) }

def addKeyPubKey (s : CCryptoKeyStore) (key : CKey) (pubkey : CPubKey) : Option CCryptoKeyStore :=
  if !s.fUseCrypto then some { s with mapKeys := s.mapKeys.insert (P.getID pubkey) key }
  else if s.isLocked true then none
  else (encryptSecret P s.vMasterKey key.vch (P.getHash pubkey)).bind (s.addCryptedKey P pubkey)

def getKey (s : CCryptoKeyStore) (address : CKeyID) : Option CKey :=
  if !s.fUseCrypto then s.mapKeys[address]?
  else s.mapCryptedKeys[address]?.bind fun (vchPubKey, vchCryptedSecret) => decryptKey P s.vMasterKey vchCryptedSecret vchPubKey

def getPubKey (s : CCryptoKeyStore) (address : CKeyID) : Option CPubKey :=
  if !s.fUseCrypto then s.mapKeys[address]?.map P.getPubKey
  else s.mapCryptedKeys[address]?.map Prod.fst

def decryptHDChain (s : CCryptoKeyStore) (hdChainRet : CHDChain) : Option CHDChain :=
  if !s.fUseCrypto then some hdChainRet
  else if s.cryptedHDChain.isNull then none
  else if !s.cryptedHDChain.fCrypted then none
  else
    let crypted := s.cryptedHDChain
    (decryptSecret P s.vMasterKey crypted.vchSeed crypted.id).bind fun vchSecureSeed =>
    (crypted.setSeed vchSecureSeed).bind fun hdChainRet =>
    if hdChainRet.getSeedHash P ≠ crypted.id then none
    else
      -- it's ok to have no mnemonic if the wallet was initialized via hdseed
      let withMnemonic := crypted.getMnemonic.elim (some hdChainRet) fun (vchCryptedMnemonic, vchCryptedMnemonicPassphrase) =>
        (decryptIfAny P s.vMasterKey vchCryptedMnemonic crypted.id).bind fun vchMnemonic =>
        (decryptIfAny P s.vMasterKey vchCryptedMnemonicPassphrase crypted.id).bind fun vchMnemonicPassphrase =>
        hdChainRet.setMnemonic vchMnemonic vchMnemonicPassphrase
      withMnemonic.map fun hdChainRet => { hdChainRet with fCrypted := false }

/-- The loop of `Unlock`: whether a key passed, and whether one failed. -/
def checkKeys (fThoroughlyChecked : Bool) (vMasterKeyIn : Bytes) : List (CKeyID × CPubKey × Bytes) → Bool × Bool
  | [] => (false, false)
  | (_, vchPubKey, vchCryptedSecret) :: rest =>
    match decryptKey P vMasterKeyIn vchCryptedSecret vchPubKey with
    | none => (false, true)
    | some _ => if fThoroughlyChecked then (true, false) else (true, (checkKeys fThoroughlyChecked vMasterKeyIn rest).2)

/-- `none` where some keys decrypt but not all: the program stops. -/
def unlock (s : CCryptoKeyStore) (vMasterKeyIn : Bytes) (fForMixingOnly : Bool) : Option (CCryptoKeyStore × Bool) :=
  match s.setCrypted with
  | none => some (s, false)
  | some s =>
    let (keyPass, keyFail) := checkKeys P s.fDecryptionThoroughlyChecked vMasterKeyIn s.mapCryptedKeys.toList
    if keyPass && keyFail then none
    else if keyFail || (!keyPass && s.cryptedHDChain.isNull) then some (s, false)
    else
      let s := { s with vMasterKey := vMasterKeyIn }
      -- try to decrypt the seed and make sure it matches
      let chainPass := s.cryptedHDChain.isNull ||
        (s.decryptHDChain P .null).elim false fun hdChainTmp => s.cryptedHDChain.id == hdChainTmp.getSeedHash P
      if chainPass then some ({ s with fDecryptionThoroughlyChecked := true, fOnlyMixingAllowed := fForMixingOnly }, true)
      else some ({ s with vMasterKey := [] }, false)

def encryptKeys (s : CCryptoKeyStore) (vMasterKeyIn : Bytes) : Option CCryptoKeyStore :=
  if !s.mapCryptedKeys.isEmpty || s.fUseCrypto then none
  else
    let encryptKey (s : CCryptoKeyStore) (mKey : CKeyID × CKey) :=
      let vchPubKey := P.getPubKey mKey.2
      (encryptSecret P vMasterKeyIn mKey.2.vch (P.getHash vchPubKey)).bind (s.addCryptedKey P vchPubKey)
    (s.mapKeys.toList.foldlM encryptKey { s with fUseCrypto := true }).map fun s => { s with mapKeys := ∅ }

def encryptHDChain (s : CCryptoKeyStore) (vMasterKeyIn : Bytes) : Option CCryptoKeyStore :=
  if !s.fUseCrypto then none
  else if !s.cryptedHDChain.isNull then some s
  else if s.cryptedHDChain.fCrypted then some s
  else if s.hdChain.id ≠ s.hdChain.getSeedHash P then none
  else
    let id := s.hdChain.id
    (encryptSecret P vMasterKeyIn s.hdChain.vchSeed id).bind fun vchCryptedSeed =>
    ({ s.hdChain with fCrypted := true }.setSeed vchCryptedSeed).bind fun crypted =>
    let withMnemonic := s.hdChain.getMnemonic.elim (some crypted) fun (vchMnemonic, vchMnemonicPassphrase) =>
      (encryptIfAny P vMasterKeyIn vchMnemonic id).bind fun vchCryptedMnemonic =>
      (encryptIfAny P vMasterKeyIn vchMnemonicPassphrase id).bind fun vchCryptedMnemonicPassphrase =>
      crypted.setMnemonic vchCryptedMnemonic vchCryptedMnemonicPassphrase
    withMnemonic.map fun crypted => { s with cryptedHDChain := crypted, hdChain := .null }

end

end CCryptoKeyStore

/-! ## What the setters do -/

namespace CCryptoKeyStore

variable {P : Primitives} {s : CCryptoKeyStore}

theorem setCrypted_of_used (h : s.fUseCrypto = true) : s.setCrypted = some s := if_pos h

theorem setHDChain_eq {c : CHDChain} (h : s.fUseCrypto = false) (hc : c.fCrypted = false) :
    s.setHDChain c = some { s with hdChain := c } := if_neg (by simp [h, hc])

theorem setCryptedHDChain_eq {c : CHDChain} (h : s.fUseCrypto = true) (hc : c.fCrypted = true) :
    s.setCryptedHDChain c = some { s with cryptedHDChain := c } := by
  rw [setCryptedHDChain, setCrypted_of_used h, Option.bind_some, if_pos hc]

theorem addKeyPubKey_plain (h : s.fUseCrypto = false) (key : CKey) (pubkey : CPubKey) :
    s.addKeyPubKey P key pubkey = some { s with mapKeys := s.mapKeys.insert (P.getID pubkey) key } := if_pos (by simp [h])

theorem addKeyPubKey_locked (h : s.fUseCrypto = true) (hl : s.isLocked true = true) (key : CKey) (pubkey : CPubKey) :
    s.addKeyPubKey P key pubkey = none := by
  simp [addKeyPubKey, h, hl]

theorem addKeyPubKey_open (h : s.fUseCrypto = true) (hl : s.isLocked true = false)
    (hsize : s.vMasterKey.length = walletCryptoKeySize)
    (key : CKey) (pubkey : CPubKey) :
    s.addKeyPubKey P key pubkey = some { s with
      mapCryptedKeys := s.mapCryptedKeys.insert (P.getID pubkey)
        (pubkey, P.encrypt s.vMasterKey (chIV (P.getHash pubkey)) key.vch) } := by
  rw [addKeyPubKey, if_neg (by simp [h]), if_neg (by simp [hl]), encryptSecret, if_pos hsize, Option.bind_some, addCryptedKey,
    setCrypted_of_used h, Option.map_some]

end CCryptoKeyStore

/-! ## What is encrypted comes back -/

structure Secrets where
  seed : Bytes
  mnemonic : Bytes
  mnemonicPassphrase : Bytes

section
variable (P : Primitives) (z : Secrets)

def Secrets.chain (mapAccounts : List CHDAccount) : CHDChain :=
  ⟨P.hash z.seed, false, z.seed, z.mnemonic, z.mnemonicPassphrase, mapAccounts⟩

def cryptedSecret (mk vch : Bytes) : Bytes := if vch = [] then [] else P.encrypt mk (chIV (P.hash z.seed)) vch

def Secrets.cryptedChain (mk : Bytes) (mapAccounts : List CHDAccount) : CHDChain :=
  ⟨P.hash z.seed, true, P.encrypt mk (chIV (P.hash z.seed)) z.seed, cryptedSecret P z mk z.mnemonic,
    if z.mnemonic = [] then z.mnemonicPassphrase else cryptedSecret P z mk z.mnemonicPassphrase, mapAccounts⟩

def KeyEntry (mk : Bytes) (address : CKeyID) (entry : CPubKey × Bytes) : Prop :=
  ∃ key, entry = (P.getPubKey key, P.encrypt mk (chIV (P.getHash (P.getPubKey key))) key.vch) ∧
    P.getID (P.getPubKey key) = address

/-- An encrypted store: all of it is encrypted under one master key, the one it is unlocked with. -/
structure Crypted (mk : Bytes) (s : CCryptoKeyStore) : Prop where
  used : s.fUseCrypto = true
  size : mk.length = walletCryptoKeySize
  locked : s.vMasterKey = [] ∨ s.vMasterKey = mk
  keys : ∀ address entry, s.mapCryptedKeys[address]? = some entry → KeyEntry P mk address entry
  chain : s.cryptedHDChain.isNull = false →
    s.cryptedHDChain = z.cryptedChain P mk s.cryptedHDChain.mapAccounts ∧ z.seed ≠ []

end

section
variable {P : Primitives} {z : Secrets} {mk : Bytes} {s : CCryptoKeyStore}

theorem Secrets.chain_isNull (accs : List CHDAccount) (h : (z.chain P accs).isNull = false) :
    z.seed ≠ [] ∧ P.hash z.seed ≠ 0 := by
  simpa [CHDChain.isNull, Secrets.chain, not_or] using h

variable (hP : P.Sound)
include hP

omit hP in
theorem encryptSecret_of_size (hmk : mk.length = walletCryptoKeySize) (m : Bytes) (nIV : Uint256) :
    encryptSecret P mk m nIV = some (P.encrypt mk (chIV nIV) m) := if_pos hmk

theorem decryptSecret_encrypted (hmk : mk.length = walletCryptoKeySize) (m : Bytes) (nIV : Uint256) :
    decryptSecret P mk (P.encrypt mk (chIV nIV) m) nIV = some m := by
  rw [decryptSecret, if_pos hmk, hP.decrypt_encrypt]

theorem decryptSecret_other {g : Bytes} (hg : g ≠ mk) (m : Bytes) (nIV : Uint256) :
    decryptSecret P g (P.encrypt mk (chIV nIV) m) nIV ≠ some m := by
  unfold decryptSecret
  split
  · exact hP.decrypt_other mk g _ m hg
  · nofun

theorem isCompressed_getPubKey (key : CKey) : isCompressed (P.getPubKey key) = key.fCompressed := by
  rw [isCompressed, hP.pubKey_size]
  cases key.fCompressed <;> rfl

theorem decryptKey_encrypted (hmk : mk.length = walletCryptoKeySize) (key : CKey) :
    decryptKey P mk (P.encrypt mk (chIV (P.getHash (P.getPubKey key))) key.vch) (P.getPubKey key) = some key := by
  have hverify : P.verifyPubKey key (P.getPubKey key) = true := (hP.verify_iff _ _).2 rfl
  obtain ⟨vch, fCompressed, size⟩ := key
  have hcomp := isCompressed_getPubKey hP ⟨vch, fCompressed, size⟩
  simp only at hcomp
  rw [decryptKey, decryptSecret_encrypted hP hmk, Option.bind_some]
  simp only [dif_pos size, hcomp, hverify, if_true]

/-- A key that passes the check of its public key is the one that was encrypted. -/
theorem decryptKey_other {g : Bytes} (hg : g ≠ mk) (key : CKey) :
    decryptKey P g (P.encrypt mk (chIV (P.getHash (P.getPubKey key))) key.vch) (P.getPubKey key) = none := by
  cases hdec : decryptSecret P g (P.encrypt mk (chIV (P.getHash (P.getPubKey key))) key.vch) (P.getHash (P.getPubKey key)) with
  | none => rw [decryptKey, hdec, Option.bind_none]
  | some vchSecret =>
    rw [decryptKey, hdec, Option.bind_some]
    split
    · rename_i hsize
      refine if_neg fun hverify => ?_
      have hkey : key = ⟨vchSecret, isCompressed (P.getPubKey key), hsize⟩ := hP.pubKey_inj ((hP.verify_iff _ _).1 hverify)
      have hvch : key.vch = vchSecret := congrArg CKey.vch hkey
      rw [← hvch] at hdec
      exact decryptSecret_other hP hg key.vch _ hdec
    · rfl

theorem KeyEntry.decrypt {address : CKeyID} {entry : CPubKey × Bytes} (h : KeyEntry P mk address entry)
    (hmk : mk.length = walletCryptoKeySize) :
    ∃ key, decryptKey P mk entry.2 entry.1 = some key ∧ entry.1 = P.getPubKey key ∧ P.getID (P.getPubKey key) = address := by
  obtain ⟨key, rfl, hid⟩ := h
  exact ⟨key, decryptKey_encrypted hP hmk key, rfl, hid⟩

theorem decryptIfAny_cryptedSecret (hmk : mk.length = walletCryptoKeySize) (m : Bytes) :
    decryptIfAny P mk (cryptedSecret P z mk m) (P.hash z.seed) = some m := by
  by_cases hm : m = []
  · simp [decryptIfAny, cryptedSecret, hm]
  · have hne := hP.encrypt_ne_nil mk (chIV (P.hash z.seed)) m
    rw [cryptedSecret, if_neg hm, decryptIfAny, if_neg (by simpa using hne), decryptSecret_encrypted hP hmk]

omit hP in
theorem encryptIfAny_of_size (hmk : mk.length = walletCryptoKeySize) (m : Bytes) :
    encryptIfAny P mk m (P.hash z.seed) = some (cryptedSecret P z mk m) := by
  by_cases hm : m = []
  · simp [encryptIfAny, cryptedSecret, hm]
  · rw [cryptedSecret, if_neg hm, encryptIfAny, if_neg (by simpa using hm), encryptSecret_of_size hmk]

omit hP in
theorem Crypted.hash_ne_zero (hs : Crypted P z mk s) (hnull : s.cryptedHDChain.isNull = false) : P.hash z.seed ≠ 0 := by
  have hid : s.cryptedHDChain.id ≠ 0 := by
    intro h
    simp [CHDChain.isNull, h] at hnull
  rwa [(hs.chain hnull).1] at hid

theorem Crypted.decryptHDChain (hs : Crypted P z mk s) (hopen : s.vMasterKey = mk) (hnull : s.cryptedHDChain.isNull = false)
    (c : CHDChain) : s.decryptHDChain P c = some (z.chain P s.cryptedHDChain.mapAccounts) := by
  obtain ⟨hchain, hseed⟩ := hs.chain hnull
  have hhash := hs.hash_ne_zero hnull
  have hset : (s.cryptedHDChain.setSeed z.seed) = some { s.cryptedHDChain with vchSeed := z.seed } := by
    rw [CHDChain.setSeed, if_neg]
    rw [hchain]
    simp [CHDChain.isNull, Secrets.cryptedChain, hseed, hhash]
  have hvch : s.cryptedHDChain.vchSeed = P.encrypt mk (chIV (P.hash z.seed)) z.seed := by rw [hchain]; rfl
  have hid : s.cryptedHDChain.id = P.hash z.seed := by rw [hchain]; rfl
  have hcr : s.cryptedHDChain.fCrypted = true := by rw [hchain]; rfl
  have hmn : s.cryptedHDChain.vchMnemonic = cryptedSecret P z mk z.mnemonic := by rw [hchain]; rfl
  have hpass : s.cryptedHDChain.vchMnemonicPassphrase =
      if z.mnemonic = [] then z.mnemonicPassphrase else cryptedSecret P z mk z.mnemonicPassphrase := by rw [hchain]; rfl
  simp only [CCryptoKeyStore.decryptHDChain, hs.used, hnull, hcr, hopen, Bool.not_true, Bool.false_eq_true, if_false, hvch, hid,
    decryptSecret_encrypted hP hs.size, Option.bind_some, hset, CHDChain.getSeedHash, ne_eq, not_true]
  by_cases hm : z.mnemonic = []
  · have hno : s.cryptedHDChain.getMnemonic = none := by simp [CHDChain.getMnemonic, hmn, cryptedSecret, hm]
    simp [hno, Secrets.chain, hmn, hpass, hm, cryptedSecret]
  · have hne : cryptedSecret P z mk z.mnemonic ≠ [] := by
      simpa [cryptedSecret, hm] using hP.encrypt_ne_nil mk _ z.mnemonic
    have hget : s.cryptedHDChain.getMnemonic =
        some (cryptedSecret P z mk z.mnemonic, cryptedSecret P z mk z.mnemonicPassphrase) := by
      simp [CHDChain.getMnemonic, hmn, hpass, hm, hne]
    simp only [hget, Option.elim_some, decryptIfAny_cryptedSecret hP hs.size, Option.bind_some]
    simp [CHDChain.setMnemonic, CHDChain.isNull, Secrets.chain, hseed, hhash]

/-! ## Unlocking -/

omit hP in
theorem Crypted.relock (hs : Crypted P z mk s) {k : Bytes} (hk : k = [] ∨ k = mk) (fOnlyMixing fChecked : Bool) :
    Crypted P z mk { s with vMasterKey := k, fOnlyMixingAllowed := fOnlyMixing, fDecryptionThoroughlyChecked := fChecked } :=
  ⟨hs.used, hs.size, hk, hs.keys, hs.chain⟩

theorem checkKeys_other {g : Bytes} (hg : g ≠ mk) (fChecked : Bool) (l : List (CKeyID × CPubKey × Bytes))
    (hl : ∀ e ∈ l, KeyEntry P mk e.1 e.2) :
    CCryptoKeyStore.checkKeys P fChecked g l = (false, !l.isEmpty) := by
  cases l with
  | nil => rfl
  | cons e rest =>
    obtain ⟨address, pub, c⟩ := e
    obtain ⟨key, heq, -⟩ := hl (address, pub, c) (by simp)
    obtain ⟨rfl, rfl⟩ := Prod.mk.inj heq
    simp [CCryptoKeyStore.checkKeys, decryptKey_other hP hg]

theorem Crypted.decryptHDChain_other {g : Bytes} (hg : g ≠ mk) (hs : Crypted P z mk s) (hnull : s.cryptedHDChain.isNull = false)
    (c : CHDChain) : { s with vMasterKey := g }.decryptHDChain P c = none := by
  obtain ⟨hchain, -⟩ := hs.chain hnull
  have hvch : s.cryptedHDChain.vchSeed = P.encrypt mk (chIV (P.hash z.seed)) z.seed := by rw [hchain]; rfl
  have hid : s.cryptedHDChain.id = P.hash z.seed := by rw [hchain]; rfl
  have hcr : s.cryptedHDChain.fCrypted = true := by rw [hchain]; rfl
  simp only [CCryptoKeyStore.decryptHDChain, hs.used, hnull, hcr, Bool.not_true, Bool.false_eq_true, if_false, hvch, hid]
  cases hdec : decryptSecret P g (P.encrypt mk (chIV (P.hash z.seed)) z.seed) (P.hash z.seed) with
  | none => rfl
  | some seed =>
    have hne : P.hash seed ≠ P.hash z.seed := by
      intro h
      rw [hP.hash_inj h] at hdec
      exact decryptSecret_other hP hg z.seed _ hdec
    simp only [Option.bind_some, CHDChain.setSeed]
    split
    · rfl
    · simp [CHDChain.getSeedHash, hne]

/-- Whatever key `Unlock` is given, it leaves the store locked or open under the master key. -/
theorem Crypted.unlock (hs : Crypted P z mk s) (g : Bytes) (fForMixingOnly : Bool) (s' : CCryptoKeyStore) (b : Bool)
    (h : s.unlock P g fForMixingOnly = some (s', b)) :
    ∃ k fOnlyMixing fChecked, (k = [] ∨ k = mk) ∧
      s' = { s with vMasterKey := k, fOnlyMixingAllowed := fOnlyMixing, fDecryptionThoroughlyChecked := fChecked } := by
  have hset : s.setCrypted = some s := if_pos hs.used
  simp only [CCryptoKeyStore.unlock, hset] at h
  by_cases hg : g = mk
  · subst hg
    split at h
    · cases h
    · split at h
      · cases h
        exact ⟨s.vMasterKey, s.fOnlyMixingAllowed, s.fDecryptionThoroughlyChecked, hs.locked, rfl⟩
      · split at h
        · cases h
          exact ⟨g, fForMixingOnly, true, .inr rfl, rfl⟩
        · cases h
          exact ⟨[], s.fOnlyMixingAllowed, s.fDecryptionThoroughlyChecked, .inl rfl, rfl⟩
  · have hkeys := checkKeys_other hP hg s.fDecryptionThoroughlyChecked s.mapCryptedKeys.toList fun e he =>
      hs.keys e.1 e.2 (Std.TreeMap.mem_toList_iff_getElem?_eq_some.1 he)
    rw [hkeys] at h
    simp only [Bool.false_and, Bool.false_eq_true, if_false, Bool.not_false, Bool.true_and] at h
    split at h
    · cases h
      exact ⟨s.vMasterKey, s.fOnlyMixingAllowed, s.fDecryptionThoroughlyChecked, hs.locked, rfl⟩
    · rename_i hopen
      have hnull : s.cryptedHDChain.isNull = false := by
        simp only [Bool.or_eq_true, not_or, Bool.not_eq_true] at hopen
        exact hopen.2
      simp only [hnull, hs.decryptHDChain_other hP hg hnull, Option.elim_none, Bool.or_self, Bool.false_eq_true, if_false] at h
      cases h
      exact ⟨[], s.fOnlyMixingAllowed, s.fDecryptionThoroughlyChecked, .inl rfl, rfl⟩

/-! ## Encryption -/

omit hP in
theorem encryptKeys_spec (hmk : mk.length = walletCryptoKeySize) (hplain : s.fUseCrypto = false) (hempty : s.mapCryptedKeys = ∅)
    (hkeys : ∀ address key, s.mapKeys[address]? = some key → P.getID (P.getPubKey key) = address) :
    ∃ m : Map CKeyID (CPubKey × Bytes), s.encryptKeys P mk =
      some { s with fUseCrypto := true, mapKeys := ∅, mapCryptedKeys := m } ∧
      ∀ address : CKeyID, m[address]? = s.mapKeys[address]?.map fun key =>
        (P.getPubKey key, P.encrypt mk (chIV (P.getHash (P.getPubKey key))) key.vch) := by
  let entry (key : CKey) := (P.getPubKey key, P.encrypt mk (chIV (P.getHash (P.getPubKey key))) key.vch)
  let add (m : Map CKeyID (CPubKey × Bytes)) (mKey : CKeyID × CKey) := m.insert mKey.1 (entry mKey.2)
  have hfold (l : List (CKeyID × CKey)) (hl : ∀ e ∈ l, P.getID (P.getPubKey e.2) = e.1) (t : CCryptoKeyStore)
      (ht : t.fUseCrypto = true) :
      l.foldlM (fun s mKey => (encryptSecret P mk mKey.2.vch (P.getHash (P.getPubKey mKey.2))).bind (s.addCryptedKey P (P.getPubKey mKey.2))) t =
        some { t with mapCryptedKeys := l.foldl add t.mapCryptedKeys } := by
    induction l generalizing t with
    | nil => rfl
    | cons e l ih =>
      have hadd : t.addCryptedKey P (P.getPubKey e.2) (P.encrypt mk (chIV (P.getHash (P.getPubKey e.2))) e.2.vch) =
          some { t with mapCryptedKeys := add t.mapCryptedKeys e } := by
        rw [CCryptoKeyStore.addCryptedKey, CCryptoKeyStore.setCrypted, if_pos ht, Option.map_some, hl e (by simp)]
      rw [List.foldlM_cons, encryptSecret_of_size hmk, Option.bind_some, hadd]
      exact ih (fun e' he' => hl e' (by simp [he'])) _ ht
  have hl : ∀ e ∈ s.mapKeys.toList, P.getID (P.getPubKey e.2) = e.1 := fun e he =>
    hkeys e.1 e.2 (Std.TreeMap.mem_toList_iff_getElem?_eq_some.1 he)
  refine ⟨s.mapKeys.toList.foldl add ∅, ?_, fun address => ?_⟩
  · have hcond : ¬ (!s.mapCryptedKeys.isEmpty || s.fUseCrypto) = true := by simp [hempty, hplain]
    rw [CCryptoKeyStore.encryptKeys, if_neg hcond]
    refine (congrArg (Option.map _) (hfold _ hl { s with fUseCrypto := true } rfl)).trans ?_
    rw [hempty]
    rfl
  · have hadd (m : Map CKeyID (CPubKey × Bytes)) (kv : CKeyID × CKey) (a : CKeyID) :
        (add m kv)[a]? = if a = kv.1 then some (entry kv.2) else m[a]? := lookup_insert
    rw [lookup_foldl_toList (fun key _ => some (entry key)) hadd address]
    cases s.mapKeys[address]? <;> simp [entry]

theorem encryptHDChain_spec (hmk : mk.length = walletCryptoKeySize) (hused : s.fUseCrypto = true)
    (hnone : s.cryptedHDChain = .null) {accs : List CHDAccount} (hchain : s.hdChain = z.chain P accs)
    (hnull : s.hdChain.isNull = false) :
    s.encryptHDChain P mk = some { s with cryptedHDChain := z.cryptedChain P mk accs, hdChain := .null } := by
  have hhash : P.hash z.seed ≠ 0 := by
    rw [hchain] at hnull
    exact (Secrets.chain_isNull accs hnull).2
  have hok : ((P.encrypt mk (chIV (P.hash z.seed)) z.seed).isEmpty || P.hash z.seed == 0) = false := by
    simp [hP.encrypt_ne_nil mk (chIV (P.hash z.seed)) z.seed, hhash]
  have hnn : CHDChain.null.isNull = true := rfl
  have hnc : CHDChain.null.fCrypted = false := rfl
  simp only [CCryptoKeyStore.encryptHDChain, hused, hnone, hnn, hnc, hchain, Bool.not_true, Bool.false_eq_true, if_false]
  have hid : ¬ (z.chain P accs).id ≠ (z.chain P accs).getSeedHash P := fun h => h rfl
  have hset : { z.chain P accs with fCrypted := true }.setSeed (P.encrypt mk (chIV (P.hash z.seed)) z.seed) =
      some ⟨P.hash z.seed, true, P.encrypt mk (chIV (P.hash z.seed)) z.seed, z.mnemonic, z.mnemonicPassphrase, accs⟩ :=
    if_neg (ne_true_of_eq_false hok)
  rw [if_neg hid]
  show ((encryptSecret P mk z.seed (P.hash z.seed)).bind fun vchCryptedSeed => _) = _
  rw [encryptSecret_of_size hmk, Option.bind_some, hset, Option.bind_some]
  by_cases hm : z.mnemonic = []
  · have hget : (z.chain P accs).getMnemonic = none := by simp [CHDChain.getMnemonic, Secrets.chain, hm]
    rw [hget]
    simp [Secrets.cryptedChain, cryptedSecret, hm]
  · have hget : (z.chain P accs).getMnemonic = some (z.mnemonic, z.mnemonicPassphrase) := by
      simp [CHDChain.getMnemonic, Secrets.chain, hm]
    have hsecret (m : Bytes) : encryptIfAny P mk m (z.chain P accs).id = some (cryptedSecret P z mk m) :=
      encryptIfAny_of_size hmk m
    rw [hget]
    simp only [Option.elim_some, hsecret, Option.bind_some, CHDChain.setMnemonic, CHDChain.isNull, hok,
      Bool.false_eq_true, if_false,
      Option.map_some, Secrets.cryptedChain, hm]

end

end Zumy.HDWallet
