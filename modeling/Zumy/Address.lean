/-
  Zumy.Address — destinations, their scripts and the addresses that stand for them
  (base58.cpp, script/standard.cpp, chainparams.cpp).

  An address is valid on the networks that know its version byte. The script of one that is
  not valid is empty: `Get` answers `CNoDestination`, whose script is cleared.

  `DecodeBase58Check`, with its checksum, is a parameter.
-/
import Zumy.ChainParams

namespace Zumy

abbrev Uint160 := { vch : List UInt8 // vch.length = 20 }

inductive CTxDestination where
  | noDestination
  | keyID (id : Uint160)
  | scriptID (id : Uint160)
  deriving DecidableEq

def opDup : UInt8 := 0x76
def opHash160 : UInt8 := 0xa9
def opEqual : UInt8 := 0x87
def opEqualVerify : UInt8 := 0x88
def opCheckSig : UInt8 := 0xac

/-- `<< ToByteVector(id)`: twenty bytes behind their number. -/
def pushID (id : Uint160) : CScript := 20 :: id.1

def getScriptForDestination : CTxDestination → CScript
  | .noDestination => []
  | .keyID id => [opDup, opHash160] ++ pushID id ++ [opEqualVerify, opCheckSig]
  | .scriptID id => [opHash160] ++ pushID id ++ [opEqual]

theorem getScriptForDestination_keyID_ne_nil (id : Uint160) : getScriptForDestination (.keyID id) ≠ [] := by
  simp [getScriptForDestination]

/-- `base58Prefixes` of addresses. -/
structure Base58Prefixes where
  pubKeyAddress : List UInt8
  scriptAddress : List UInt8

def Network.base58Prefixes : Network → Base58Prefixes
  | .main => ⟨[80], [10]⟩
  | .test => ⟨[28], [10]⟩
  | .regtest => ⟨[28], [19]⟩

structure CZumyAddress where
  vchVersion : List UInt8
  vchData : List UInt8

namespace CZumyAddress

/-- `SetString` of a decoded string, with one version byte. -/
def ofDecoded : Option (List UInt8) → CZumyAddress
  | none => ⟨[], []⟩
  | some vchTemp => if vchTemp.length < 1 then ⟨[], []⟩ else ⟨vchTemp.take 1, vchTemp.drop 1⟩

def isValid (a : CZumyAddress) (prefixes : Base58Prefixes) : Bool :=
  let fCorrectSize := a.vchData.length == 20
  let fKnownVersion := a.vchVersion == prefixes.pubKeyAddress || a.vchVersion == prefixes.scriptAddress
  fCorrectSize && fKnownVersion

theorem length_of_isValid {a : CZumyAddress} {prefixes : Base58Prefixes} (h : a.isValid prefixes = true) :
    a.vchData.length = 20 :=
  eq_of_beq (Bool.and_eq_true_iff.1 h).1

def get (a : CZumyAddress) (prefixes : Base58Prefixes) : CTxDestination :=
  if h : a.isValid prefixes = true then
    if a.vchVersion == prefixes.pubKeyAddress then .keyID ⟨a.vchData, length_of_isValid h⟩
    else if a.vchVersion == prefixes.scriptAddress then .scriptID ⟨a.vchData, length_of_isValid h⟩
    else .noDestination
  else .noDestination

end CZumyAddress

end Zumy
