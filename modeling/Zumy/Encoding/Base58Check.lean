/-
  Zumy.Encoding.Base58Check — addresses as text (base58.cpp: `EncodeBase58Check`,
  `DecodeBase58Check`, `CBase58Data::SetString`, `ToString`). `hash` is `Hash`.

  - `address_text`: an address has one text, which is read back; no other is, but for spaces
    around it.
-/
import Zumy.Address
import Zumy.Encoding.Base58

namespace Zumy.Encoding.Base58

section
variable (hash : List UInt8 → Vector UInt8 32)

def checksum (vch : List UInt8) : List UInt8 := (hash vch).toList.take 4

def encodeBase58Check (vchIn : List UInt8) : Outcome (List Char) := encodeBase58 (vchIn ++ checksum hash vchIn)

def decodeBase58Check (psz : List Char) : Outcome (List UInt8) := do
  let vchRet ← decodeBase58 psz
  if vchRet.length < 4 then .error .refused
  else if checksum hash (vchRet.take (vchRet.length - 4)) ≠ vchRet.drop (vchRet.length - 4) then .error .refused
  else return vchRet.take (vchRet.length - 4)

/-- `SetString`: both members are cleared where the text is refused. -/
def setString (psz : List Char) : Outcome CZumyAddress :=
  match decodeBase58Check hash psz with
  | .ok vchTemp => .ok (.ofDecoded (some vchTemp))
  | .error .refused => .ok (.ofDecoded none)
  | .error e => .error e

def toString (a : CZumyAddress) : Outcome (List Char) := encodeBase58Check hash (a.vchVersion ++ a.vchData)

end

def setDestination (prefixes : Base58Prefixes) : CTxDestination → CZumyAddress
  | .noDestination => ⟨[], []⟩
  | .keyID id => ⟨prefixes.pubKeyAddress, id.1⟩
  | .scriptID id => ⟨prefixes.scriptAddress, id.1⟩

variable {hash : List UInt8 → Vector UInt8 32} {v data : List UInt8} {version : UInt8} {str : List Char} {a : CZumyAddress}

theorem length_checksum : (checksum hash v).length = 4 := by
  simp [checksum]

theorem decodeBase58Check_eq_ok : decodeBase58Check hash str = .ok v ↔ decodeBase58 str = .ok (v ++ checksum hash v) := by
  constructor
  · intro h
    obtain ⟨vchRet, hdecode, hrest⟩ := exists_ok h
    split at hrest
    · cases hrest
    · split at hrest
      · cases hrest
      · next hsum =>
        cases hrest
        rw [hdecode, not_not.1 hsum, List.take_append_drop]
  · intro h
    have hlen : (v ++ checksum hash v).length - 4 = v.length := by
      rw [List.length_append, length_checksum, Nat.add_sub_cancel]
    rw [decodeBase58Check, h, ok_bind, hlen, List.take_left, List.drop_left, if_neg (by simp [length_checksum]),
      if_neg (not_not.2 rfl)]
    rfl

theorem setString_eq_ok : setString hash str = .ok ⟨[version], data⟩ ↔ decodeBase58Check hash str = .ok (version :: data) := by
  unfold setString
  cases decodeBase58Check hash str with
  | ok vchTemp =>
    cases vchTemp with
    | nil => simp [CZumyAddress.ofDecoded]
    | cons b bs => simp [CZumyAddress.ofDecoded]
  | error e => cases e <;> simp [CZumyAddress.ofDecoded]

theorem fitsInt_of_length (h : v.length < 1000) : FitsInt v := by
  have htake := (List.takeWhile_sublist (l := v) (· = 0)).length_le
  have hdrop := (List.dropWhile_sublist (l := v) (· = 0)).length_le
  exact ⟨by omega, by omega⟩

theorem encode_of_decode (hnul : '\x00' ∉ str) (h : decodeBase58 str = .ok v) (hfits : FitsInt v) :
    encodeBase58 v = .ok (trim str) := by
  obtain ⟨ds, hds⟩ := spells_of_decodePsz h
  obtain ⟨hzeroes, rfl⟩ := eq_of_decodePsz hds h
  refine (encode_decode_iff h).2 ⟨hnul, ?_⟩
  have hwhole : str.takeWhile (· ≠ '\x00') = str :=
    List.takeWhile_eq_self_iff.2 fun c hc => decide_eq_true fun hzero => hnul (hzero ▸ hc)
  rw [hwhole] at hds
  rw [hds.spelled_eq]
  exact (fitsInt_bytes_iff hzeroes).1 hfits

theorem exists_text (hash : List UInt8 → Vector UInt8 32) (version : UInt8) (h : data.length < 900) :
    ∃ w, toString hash ⟨[version], data⟩ = .ok w ∧ setString hash w = .ok ⟨[version], data⟩ ∧
      ∀ str, '\x00' ∉ str → setString hash str = .ok ⟨[version], data⟩ → trim str = w := by
  have hfits : FitsInt (version :: data ++ checksum hash (version :: data)) :=
    fitsInt_of_length (by rw [List.length_append, length_checksum, List.length_cons]; omega)
  obtain ⟨w, hw, hback⟩ := exists_ok ((decode_encode_iff _).2 hfits)
  refine ⟨w, hw, setString_eq_ok.2 (decodeBase58Check_eq_ok.2 hback), fun str hnul hstr => ?_⟩
  have hdecode := decodeBase58Check_eq_ok.1 (setString_eq_ok.1 hstr)
  exact Except.ok.inj ((encode_of_decode hnul hdecode hfits).symm.trans hw)

theorem address_text (hash : List UInt8 → Vector UInt8 32) (net : Network) {dest : CTxDestination} (hdest : dest ≠ .noDestination) :
    ∃ w, toString hash (setDestination net.base58Prefixes dest) = .ok w ∧
      (∃ a, setString hash w = .ok a ∧ a.get net.base58Prefixes = dest) ∧
      ∀ str a, '\x00' ∉ str → setString hash str = .ok a → a.get net.base58Prefixes = dest → trim str = w := by
  have hset (a : CZumyAddress) (h : a.get net.base58Prefixes = dest) : a = setDestination net.base58Prefixes dest := by
    unfold CZumyAddress.get at h
    split at h
    · split at h
      · next hkey =>
        cases h
        exact congrArg₂ CZumyAddress.mk (eq_of_beq hkey) rfl
      · split at h
        · next hscript =>
          cases h
          exact congrArg₂ CZumyAddress.mk (eq_of_beq hscript) rfl
        · exact absurd h.symm hdest
    · exact absurd h.symm hdest
  have hback : (setDestination net.base58Prefixes dest).get net.base58Prefixes = dest := by
    cases dest with
    | noDestination => exact absurd rfl hdest
    | keyID id => cases net <;> simp [setDestination, CZumyAddress.get, CZumyAddress.isValid, id.2]
    | scriptID id =>
      cases net <;> simp [setDestination, CZumyAddress.get, CZumyAddress.isValid, Network.base58Prefixes, id.2]
  have hshape : ∃ version data, setDestination net.base58Prefixes dest = ⟨[version], data⟩ ∧ data.length = 20 := by
    cases dest with
    | noDestination => exact absurd rfl hdest
    | keyID id => cases net <;> exact ⟨_, id.1, rfl, id.2⟩
    | scriptID id => cases net <;> exact ⟨_, id.1, rfl, id.2⟩
  obtain ⟨version, data, heq, hlen⟩ := hshape
  obtain ⟨w, hw, hread, hone⟩ := exists_text hash version (show data.length < 900 by omega)
  rw [← heq] at hw hread
  refine ⟨w, hw, ⟨_, hread, hback⟩, fun str a hnul hstr hget => hone str hnul ?_⟩
  rw [hstr, hset a hget, heq]

theorem address_text_sample : ∃ w, toString (fun _ => Vector.replicate 32 0) ⟨[80], List.replicate 20 0⟩ = .ok w ∧
    ∀ str a, '\x00' ∉ str → setString (fun _ => Vector.replicate 32 0) str = .ok a →
      a.get Network.main.base58Prefixes = .keyID ⟨List.replicate 20 0, rfl⟩ → trim str = w := by
  have hkey : CTxDestination.keyID ⟨List.replicate 20 0, rfl⟩ ≠ .noDestination := by simp
  obtain ⟨w, hw, -, hone⟩ := address_text (fun _ => Vector.replicate 32 0) .main hkey
  exact ⟨w, hw, hone⟩

end Zumy.Encoding.Base58
