/-
  Zumy.Blocks.AddressRead — what is read from the address indexes (txdb.cpp:
  `ReadAddressIndex`, `ReadAddressUnspentIndex`).

  The database is sorted by the bytes of its keys. Those of the address index begin with the
  type, the hash and the height, highest byte first; those of the address-unspent index have
  no height. The values are kept as what they decode to.

  The loops stop at an entry of another hash. They do not look at its type: where the entry
  behind the last one that is asked for has the hash under another type (`AddressTwin`,
  `UnspentTwin`), it is read, too, and what is behind it.

  - `readAddressIndex_spec`, `readUnspent_spec`: elsewhere they read what is asked for.
  - `unspent_not_by_height`: the unspent outputs of an address come in the order of their
    transactions' hashes.
-/
import Zumy.Blocks.Model
import Zumy.Lib.Cursor

namespace Zumy.Blocks

open Zumy.Lib

def dbAddressIndex : UInt8 := 97
def dbAddressUnspentIndex : UInt8 := 117

/-- `ser_writedata8` -/
def writeByte (n : Int) : UInt8 := UInt8.ofNat (n % 256).toNat

def readByte : Decoder UInt8 UInt8
  | [] => none
  | b :: rest => some (b, rest)

namespace CAddressIndexKey

def serialize (key : CAddressIndexKey) : List UInt8 :=
  [writeByte key.type] ++ (key.hashBytes ++ (beBytes 4 (key.blockHeight % 2 ^ 32).toNat ++ (beBytes 4 key.txindex ++
    (leBytes 32 key.txhash ++ (leBytes 4 key.index ++ [if key.spending then 1 else 0])))))

def unserialize : Decoder UInt8 CAddressIndexKey := do
  let type ← readByte
  let hashBytes ← Decoder.take 20
  let blockHeight ← readBe 4
  let txindex ← readBe 4
  let txhash ← readLe 32
  let index ← readLe 4
  let f ← readByte
  pure ⟨type.toNat, hashBytes, (blockHeight : Int).bmod (2 ^ 32), txindex, txhash, index, f != 0⟩

/-- A key of a block's transaction: its fields are in the ranges of their types, and its height
    is not negative. -/
structure Storable (key : CAddressIndexKey) : Prop where
  type : key.type < 256
  hashBytes : key.hashBytes.length = 20
  blockHeight : 0 ≤ key.blockHeight ∧ key.blockHeight < 2 ^ 31
  txindex : key.txindex < 2 ^ 32
  txhash : key.txhash < 2 ^ 256
  index : key.index < 2 ^ 32

end CAddressIndexKey

namespace CAddressUnspentKey

def serialize (key : CAddressUnspentKey) : List UInt8 :=
  [writeByte key.type] ++ (key.hashBytes ++ (leBytes 32 key.txhash ++ leBytes 4 key.index))

def unserialize : Decoder UInt8 CAddressUnspentKey := do
  let type ← readByte
  let hashBytes ← Decoder.take 20
  let txhash ← readLe 32
  let index ← readLe 4
  pure ⟨type.toNat, hashBytes, txhash, index⟩

structure Storable (key : CAddressUnspentKey) : Prop where
  type : key.type < 256
  hashBytes : key.hashBytes.length = 20
  txhash : key.txhash < 2 ^ 256
  index : key.index < 2 ^ 32

end CAddressUnspentKey

/-- `CAddressIndexIteratorKey` -/
def iteratorKey (type : Int) (addressHash : Uint160) : List UInt8 := writeByte type :: addressHash.1

/-- `CAddressIndexIteratorHeightKey` -/
def iteratorHeightKey (type : Int) (addressHash : Uint160) (start : Int32) : List UInt8 :=
  iteratorKey type addressHash ++ beBytes 4 (start.toInt % 2 ^ 32).toNat

/-! ## The database -/

inductive DbValue where
  | amount (nValue : CAmount)
  | unspent (nValue : CAddressUnspentValue)
  | other (vch : List UInt8)
  deriving DecidableEq

def DbValue.getAmount : DbValue → Option CAmount
  | amount nValue => some nValue
  | _ => none

def DbValue.getUnspent : DbValue → Option CAddressUnspentValue
  | unspent nValue => some nValue
  | _ => none

abbrev DbEntry := List UInt8 × DbValue

/-- The entries by the bytes of their keys; those of the two indexes are as they are written. -/
structure CBlockTreeDB where
  entries : List DbEntry
  stored : Stored entries
  addressIndex : ∀ a ∈ entries, a.1.head? = some dbAddressIndex →
    ∃ key nValue, key.Storable ∧ a = (dbAddressIndex :: CAddressIndexKey.serialize key, .amount nValue)
  addressUnspentIndex : ∀ a ∈ entries, a.1.head? = some dbAddressUnspentIndex →
    ∃ key nValue, key.Storable ∧ a = (dbAddressUnspentIndex :: CAddressUnspentKey.serialize key, .unspent nValue)

/-- `GetKey`: the first byte and the key behind it. -/
def getKey {K : Type} (unserialize : Decoder UInt8 K) : List UInt8 → Option (UInt8 × K)
  | [] => none
  | c :: is => (unserialize is).map fun r => (c, r.1)

/-- The loop of the two functions: it goes on while the key is there and `fMine` of it; its
    result is false where a value is not there. -/
def readIndex {K V : Type} (unserialize : Decoder UInt8 K) (getValue : DbValue → Option V) (fMine : UInt8 × K → Bool) :
    List DbEntry → Bool × List (K × V)
  | [] => (true, [])
  | a :: pcursor =>
    match getKey unserialize a.1 with
    | none => (true, [])
    | some key =>
      if fMine key then
        match getValue a.2 with
        | none => (false, [])
        | some nValue =>
          let (fOk, rest) := readIndex unserialize getValue fMine pcursor
          (fOk, (key.2, nValue) :: rest)
      else (true, [])

def readAddressUnspentIndex (db : CBlockTreeDB) (addressHash : Uint160) (type : Int) :
    Bool × List (CAddressUnspentKey × CAddressUnspentValue) :=
  readIndex CAddressUnspentKey.unserialize DbValue.getUnspent
    (fun key => key.1 == dbAddressUnspentIndex && key.2.hashBytes == addressHash.1)
    (seek db.entries (dbAddressUnspentIndex :: iteratorKey type addressHash))

/-- Where `ReadAddressIndex` begins. -/
def seekKey (addressHash : Uint160) (type : Int) (start end_ : Int32) : List UInt8 :=
  dbAddressIndex :: if start > 0 && end_ > 0 then iteratorHeightKey type addressHash start else iteratorKey type addressHash

def readAddressIndex (db : CBlockTreeDB) (addressHash : Uint160) (type : Int) (start end_ : Int32) :
    Bool × List (CAddressIndexKey × CAmount) :=
  readIndex CAddressIndexKey.unserialize DbValue.getAmount
    (fun key => key.1 == dbAddressIndex && key.2.hashBytes == addressHash.1 && !(end_ > 0 && key.2.blockHeight > end_.toInt))
    (seek db.entries (seekKey addressHash type start end_))

/-! ## Keys come back -/

theorem decodes_readByte (b : UInt8) : Decodes readByte [b] b := fun _ => rfl

theorem toNat_writeByte (n : Int) : (writeByte n).toNat = (n % 256).toNat := by
  unfold writeByte
  rw [UInt8.toNat_ofNat']
  omega

theorem CAddressIndexKey.Storable.decodes {key : CAddressIndexKey} (h : key.Storable) :
    Decodes CAddressIndexKey.unserialize key.serialize key := by
  have hheight : (((key.blockHeight % 2 ^ 32).toNat : Int)).bmod (2 ^ 32) = key.blockHeight := by
    have hb := h.blockHeight
    rw [Int.toNat_of_nonneg (Int.emod_nonneg _ (by decide)), Int.emod_eq_of_lt hb.1 (by omega)]
    apply Int.bmod_eq_of_le_mul_two <;> omega
  have htype : (writeByte key.type).toNat = key.type := by
    have ht := h.type
    rw [toNat_writeByte]
    omega
  have hspending : ((if key.spending then 1 else 0 : UInt8) != 0) = key.spending := by cases key.spending <;> rfl
  have hlt : (key.blockHeight % 2 ^ 32).toNat < 256 ^ 4 := by omega
  unfold CAddressIndexKey.unserialize CAddressIndexKey.serialize
  refine (decodes_readByte _).bind ((decodes_take h.hashBytes).bind ((decodes_beBytes hlt).bind ((decodes_beBytes h.txindex).bind
    ((decodes_leBytes h.txhash).bind ((decodes_leBytes h.index).bind ?_)))))
  rw [← List.append_nil [if key.spending then (1 : UInt8) else 0]]
  refine (decodes_readByte _).bind ?_
  rw [hheight, htype, hspending]
  exact decodes_pure key

theorem CAddressUnspentKey.Storable.decodes {key : CAddressUnspentKey} (h : key.Storable) :
    Decodes CAddressUnspentKey.unserialize key.serialize key := by
  have htype : (writeByte key.type).toNat = key.type := by
    have ht := h.type
    rw [toNat_writeByte]
    omega
  unfold CAddressUnspentKey.unserialize CAddressUnspentKey.serialize
  refine (decodes_readByte _).bind ((decodes_take h.hashBytes).bind ((decodes_leBytes h.txhash).bind ?_))
  rw [← List.append_nil (leBytes 4 key.index)]
  refine (decodes_leBytes h.index).bind ?_
  rw [htype]
  exact decodes_pure key

theorem getKey_of_decodes {K : Type} {unserialize : Decoder UInt8 K} {bytes : List UInt8} {key : K}
    (h : Decodes unserialize bytes key)
    (c : UInt8) : getKey unserialize (c :: bytes) = some (c, key) := by
  have hread := h []
  rw [List.append_nil] at hread
  rw [getKey, hread]
  rfl

/-! ## The loop -/

section Loop

variable {K V : Type} {unserialize : Decoder UInt8 K} {getValue : DbValue → Option V} {fMine : UInt8 × K → Bool}
    {l : List DbEntry}

def readEntry (unserialize : Decoder UInt8 K) (getValue : DbValue → Option V) (a : DbEntry) : Option (K × V) :=
  (getKey unserialize a.1).bind fun key => (getValue a.2).map fun nValue => (key.2, nValue)

theorem readIndex_eq (hvalue : ∀ a ∈ l, ∀ key, getKey unserialize a.1 = some key → fMine key = true → (getValue a.2).isSome) :
    readIndex unserialize getValue fMine l =
      (true, (l.takeWhile fun a => (getKey unserialize a.1).any fMine).filterMap (readEntry unserialize getValue)) := by
  induction l with
  | nil => rfl
  | cons a l ih =>
    have hrest := ih fun b hb => hvalue b (List.mem_cons_of_mem a hb)
    rw [readIndex]
    cases hkey : getKey unserialize a.1 with
    | none => rw [List.takeWhile_cons_of_neg (by simp [hkey])]; rfl
    | some key =>
      dsimp only
      cases hmine : fMine key with
      | false => rw [List.takeWhile_cons_of_neg (by simp [hkey, hmine])]; rfl
      | true =>
        obtain ⟨nValue, hnValue⟩ := Option.isSome_iff_exists.1 (hvalue a List.mem_cons_self key hkey hmine)
        have hentry : readEntry unserialize getValue a = some (key.2, nValue) := by
          rw [readEntry, hkey, Option.bind_some, hnValue, Option.map_some]
        rw [List.takeWhile_cons_of_pos (by simp [hkey, hmine]), List.filterMap_cons_some hentry, hrest, hnValue]
        rfl

/-- The loop over an index: `read?` tells its entries, `asks` what is asked for of them. It
    comes first where the reading begins, and the loop does not go on at what is behind it. -/
theorem readIndex_spec {entries : List DbEntry} {fromKey : List UInt8} {c : UInt8} {read? : DbEntry → Option (K × V)}
    {asks : K → Bool}
    (hstored : Stored entries)
    (hentry : ∀ a ∈ entries, ∀ it, read? a = some it → getKey unserialize a.1 = some (c, it.1) ∧ getValue a.2 = some it.2)
    (hmine : ∀ a ∈ entries, ∀ key, getKey unserialize a.1 = some key → fMine key = true →
      ∃ nValue, read? a = some (key.2, nValue))
    (hasks : ∀ a ∈ entries, ∀ it, read? a = some it → asks it.1 = true → fMine (c, it.1) = true ∧ ¬ a.1 < fromKey)
    (hfirst : (seek entries fromKey).Pairwise fun a b => (read? b).any (asks ·.1) = true → (read? a).any (asks ·.1) = true)
    (hstop : ∀ a, (seek entries fromKey).find? (fun a => !(read? a).any (asks ·.1)) = some a → ∀ it, read? a = some it →
      fMine (c, it.1) = false) :
    readIndex unserialize getValue fMine (seek entries fromKey) =
      (true, (entries.filterMap read?).filter fun it => asks it.1) := by
  have hmem {a : DbEntry} (ha : a ∈ seek entries fromKey) : a ∈ entries := List.dropWhile_subset _ ha
  have hvalue : ∀ a ∈ seek entries fromKey, ∀ key, getKey unserialize a.1 = some key → fMine key = true →
    (getValue a.2).isSome := by
    intro a ha key hkey hok
    obtain ⟨nValue, hnValue⟩ := hmine a (hmem ha) key hkey hok
    rw [(hentry a (hmem ha) _ hnValue).2]
    rfl
  have htake : ((seek entries fromKey).takeWhile fun a => (getKey unserialize a.1).any fMine) =
      (seek entries fromKey).filter fun a => (read? a).any (asks ·.1) := by
    refine takeWhile_eq_filter ?_ hfirst ?_
    · intro a ha hasked
      cases hit : read? a with
      | none =>
        rw [hit] at hasked
        cases hasked
      | some it =>
        rw [hit, Option.any_some] at hasked
        rw [(hentry a (hmem ha) it hit).1, Option.any_some]
        exact (hasks a (hmem ha) it hit hasked).1
    · intro a ha
      have hin := hmem (List.mem_of_find?_eq_some ha)
      rw [Bool.eq_false_iff]
      intro hok
      cases hkey : getKey unserialize a.1 with
      | none =>
        rw [hkey] at hok
        cases hok
      | some key =>
        rw [hkey, Option.any_some] at hok
        obtain ⟨nValue, hit⟩ := hmine a hin key hkey hok
        have hc := (hentry a hin _ hit).1
        rw [hkey, Option.some.injEq] at hc
        rw [hc, hstop a ha _ hit] at hok
        cases hok
  rw [readIndex_eq hvalue, htake]
  congr 1
  rw [seek_eq_filter hstored, List.filter_filter, List.filter_filterMap, List.filterMap_filter]
  apply List.filterMap_congr
  intro a ha
  cases hit : read? a with
  | none => simp
  | some it =>
    obtain ⟨hkey, hnValue⟩ := hentry a ha it hit
    rw [Option.any_some, Option.filter_some]
    cases hasked : asks it.1 with
    | false => simp
    | true =>
      have hread : readEntry unserialize getValue a = some it := by
        rw [readEntry, hkey, Option.bind_some, hnValue, Option.map_some]
      simp [(hasks a ha it hit hasked).2, hread]

end Loop

/-! ## The address index -/

variable {db : CBlockTreeDB} {addressHash : Uint160} {type : Int} {start end_ : Int32} {a b : DbEntry}

def addressOf? (a : DbEntry) : Option (CAddressIndexKey × CAmount) :=
  if a.1.head? = some dbAddressIndex then readEntry CAddressIndexKey.unserialize DbValue.getAmount a else none

def CBlockTreeDB.addresses (db : CBlockTreeDB) : List (CAddressIndexKey × CAmount) := db.entries.filterMap addressOf?

/-- What is asked for; a range is given by two positive heights, and the higher one cuts alone,
    too. -/
def AsksAddress (addressHash : Uint160) (type : Int) (start end_ : Int32) (key : CAddressIndexKey) : Bool :=
  (key.type : Int) == type % 256 && key.hashBytes == addressHash.1 && !(start > 0 && end_ > 0 && key.blockHeight < start.toInt) &&
    !(end_ > 0 && key.blockHeight > end_.toInt)

def asksEntry (addressHash : Uint160) (type : Int) (start end_ : Int32) (a : DbEntry) : Bool :=
  (addressOf? a).any fun it => AsksAddress addressHash type start end_ it.1

/-- The first entry that is not asked for, from where the reading begins, has the hash under
    another type, at a height that does not end the loop. -/
def AddressTwin (db : CBlockTreeDB) (addressHash : Uint160) (type : Int) (start end_ : Int32) : Prop :=
  ∃ a key nValue, (seek db.entries (seekKey addressHash type start end_)).find? (fun a => !asksEntry addressHash type start end_ a) = some a ∧
    addressOf? a = some (key, nValue) ∧ key.hashBytes = addressHash.1 ∧ (key.type : Int) ≠ type % 256 ∧
    (end_ > 0 && key.blockHeight > end_.toInt) = false

theorem addressOf?_serialize {key : CAddressIndexKey} (h : key.Storable) (nValue : CAmount) :
    addressOf? (dbAddressIndex :: key.serialize, .amount nValue) = some (key, nValue) := by
  rw [addressOf?, if_pos List.head?_cons, readEntry, getKey_of_decodes h.decodes]
  rfl

theorem addressOf?_cases (ha : a ∈ db.entries) (hhead : a.1.head? = some dbAddressIndex) : ∃ key nValue, key.Storable ∧
    a = (dbAddressIndex :: key.serialize, .amount nValue) ∧ addressOf? a = some (key, nValue) := by
  obtain ⟨key, nValue, hstorable, rfl⟩ := db.addressIndex a ha hhead
  exact ⟨key, nValue, hstorable, rfl, addressOf?_serialize hstorable nValue⟩

theorem head_of_addressOf? {it : CAddressIndexKey × CAmount} (h : addressOf? a = some it) : a.1.head? = some dbAddressIndex := by
  by_contra hhead
  rw [addressOf?, if_neg hhead] at h
  cases h

theorem mem_addresses {key : CAddressIndexKey} {nValue : CAmount} :
    (key, nValue) ∈ db.addresses ↔ key.Storable ∧ (dbAddressIndex :: key.serialize, .amount nValue) ∈ db.entries := by
  unfold CBlockTreeDB.addresses
  rw [List.mem_filterMap]
  constructor
  · intro h
    obtain ⟨a, ha, hentry⟩ := h
    obtain ⟨key', nValue', hstorable, rfl, hread⟩ := addressOf?_cases ha (head_of_addressOf? hentry)
    rw [hread] at hentry
    cases hentry
    exact ⟨hstorable, ha⟩
  · intro h
    exact ⟨_, h.2, addressOf?_serialize h.1 nValue⟩

theorem writeByte_inj {n : Nat} (hn : n < 256) : writeByte n = writeByte type ↔ (n : Int) = type % 256 := by
  rw [← UInt8.toNat_inj, toNat_writeByte, toNat_writeByte]
  omega

/-- A key begins with the type and the hash that are looked for if it is of both. -/
theorem iteratorKey_begins {n : Nat} {hashBytes rest : List UInt8} (hn : n < 256) (hlength : hashBytes.length = 20) :
    iteratorKey type addressHash <+: writeByte n :: (hashBytes ++ rest) ↔ (n : Int) = type % 256 ∧ hashBytes = addressHash.1 := by
  rw [iteratorKey, List.cons_prefix_cons, eq_comm (a := writeByte type), writeByte_inj hn]
  apply and_congr_right
  intro _
  constructor
  · intro h
    obtain ⟨t, ht⟩ := h
    exact (List.append_inj ht (addressHash.2.trans hlength.symm)).1.symm
  · intro h
    rw [h]
    exact List.prefix_append _ _

/-- What a key goes on with behind its type and hash: the height, then what is left. -/
theorem serialize_eq_height {key : CAddressIndexKey} (h : key.Storable) (htype : (key.type : Int) = type % 256)
    (hhash : key.hashBytes = addressHash.1) : ∃ rest, dbAddressIndex :: key.serialize =
      (dbAddressIndex :: iteratorKey type addressHash) ++ (beBytes 4 key.blockHeight.toNat ++ rest) := by
  have hheight := h.blockHeight
  have hmod : (key.blockHeight % 2 ^ 32).toNat = key.blockHeight.toNat := by omega
  unfold CAddressIndexKey.serialize
  rw [(writeByte_inj h.type).2 htype, hhash, hmod]
  exact ⟨_, rfl⟩

theorem height_le_of_lt {key key' : CAddressIndexKey} (h : key.Storable) (h' : key'.Storable)
    (htype : (key.type : Int) = type % 256)
    (hhash : key.hashBytes = addressHash.1) (htype' : (key'.type : Int) = type % 256) (hhash' : key'.hashBytes = addressHash.1)
    (hlt : dbAddressIndex :: key.serialize < dbAddressIndex :: key'.serialize) : key.blockHeight ≤ key'.blockHeight := by
  by_contra hgt
  obtain ⟨rest, heq⟩ := serialize_eq_height h htype hhash
  obtain ⟨rest', heq'⟩ := serialize_eq_height h' htype' hhash'
  rw [heq, heq', append_lt_append_iff] at hlt
  have hheight := h.blockHeight
  have hheight' := h'.blockHeight
  refine List.lt_asymm hlt (beBytes_append_lt ?_)
  omega

theorem seekKey_eq : seekKey addressHash type start end_ = (dbAddressIndex :: iteratorKey type addressHash) ++
    if start > 0 && end_ > 0 then beBytes 4 (start.toInt % 2 ^ 32).toNat else [] := by
  unfold seekKey iteratorHeightKey
  split <;> simp

/-- A key of the address is not before the place where the reading begins just when it is not
    below the range. -/
theorem not_lt_seekKey_iff {key : CAddressIndexKey} (h : key.Storable) (htype : (key.type : Int) = type % 256)
    (hhash : key.hashBytes = addressHash.1) : ¬ dbAddressIndex :: key.serialize < seekKey addressHash type start end_ ↔
      (start > 0 && end_ > 0 && key.blockHeight < start.toInt) = false := by
  obtain ⟨rest, heq⟩ := serialize_eq_height h htype hhash
  rw [heq, seekKey_eq, append_lt_append_iff]
  cases hrange : decide (start > 0) && decide (end_ > 0) with
  | false => simp
  | true =>
    have hstart : 0 < start.toInt := by
      have hpos : start > 0 := by simp at hrange; exact hrange.1
      simpa using Int32.lt_iff_toInt_lt.1 hpos
    have hint := start.toInt_lt
    have hheight := h.blockHeight
    have hmod : (start.toInt % 2 ^ 32).toNat = start.toInt.toNat := by omega
    rw [if_pos rfl, hmod, Bool.true_and, decide_eq_false_iff_not, not_iff_not]
    constructor
    · intro hlt
      by_contra hge
      rcases Nat.eq_or_lt_of_le (by omega : start.toInt.toNat ≤ key.blockHeight.toNat) with hsame | habove
      · rw [hsame] at hlt
        exact not_append_lt hlt
      · have hbe : beBytes 4 start.toInt.toNat ++ [] < beBytes 4 key.blockHeight.toNat ++ rest := beBytes_append_lt (by omega)
        rw [List.append_nil] at hbe
        exact List.lt_asymm hlt hbe
    · intro hlow
      have hbe : beBytes 4 key.blockHeight.toNat ++ rest < beBytes 4 start.toInt.toNat ++ [] := beBytes_append_lt (by omega)
      rwa [List.append_nil] at hbe

theorem asksAddress_iff {key : CAddressIndexKey} :
    AsksAddress addressHash type start end_ key = true ↔ (key.type : Int) = type % 256 ∧
    key.hashBytes = addressHash.1 ∧ (start > 0 && end_ > 0 && key.blockHeight < start.toInt) = false ∧
      (end_ > 0 && key.blockHeight > end_.toInt) = false := by
  simp only [AsksAddress, Bool.and_eq_true, Bool.not_eq_true', beq_iff_eq, and_assoc]

theorem asksEntry_cases (h : asksEntry addressHash type start end_ a = true) (ha : a ∈ db.entries) : ∃ key nValue, key.Storable ∧
    a = (dbAddressIndex :: key.serialize, .amount nValue) ∧ addressOf? a = some (key, nValue) ∧ (key.type : Int) = type % 256 ∧
      key.hashBytes = addressHash.1 ∧ (start > 0 && end_ > 0 && key.blockHeight < start.toInt) = false ∧
      (end_ > 0 && key.blockHeight > end_.toInt) = false := by
  cases hentry : addressOf? a with
  | none =>
    rw [asksEntry, hentry] at h
    cases h
  | some it =>
    obtain ⟨key, nValue, hstorable, rfl, hread⟩ := addressOf?_cases ha (head_of_addressOf? hentry)
    rw [asksEntry, hread, Option.any_some] at h
    rw [← hentry, hread]
    exact ⟨key, nValue, hstorable, rfl, rfl, asksAddress_iff.1 h⟩

theorem asksEntry_pairwise : (seek db.entries (seekKey addressHash type start end_)).Pairwise fun a b =>
    asksEntry addressHash type start end_ b = true → asksEntry addressHash type start end_ a = true := by
  rw [seek_eq_filter db.stored]
  refine List.Pairwise.imp_of_mem ?_ (db.stored.filter _)
  intro a b ha hb hlt hasks
  obtain ⟨ha, hbehind⟩ := List.mem_filter.1 ha
  have hb := (List.mem_filter.1 hb).1
  obtain ⟨key', nValue', h', rfl, -, htype', hhash', -, hend⟩ := asksEntry_cases hasks hb
  have hseek : ¬ a.1 < seekKey addressHash type start end_ := by simpa using hbehind
  have hprefix : (dbAddressIndex :: iteratorKey type addressHash) <+: a.1 := by
    refine prefix_of_between (fun hlow => hseek ?_) hlt ?_
    · rw [seekKey_eq]
      exact lt_append_of_lt hlow
    · obtain ⟨rest, hrest⟩ := serialize_eq_height h' htype' hhash'
      rw [hrest]
      exact List.prefix_append _ _
  have hhead : a.1.head? = some dbAddressIndex := by
    obtain ⟨t, ht⟩ := hprefix
    rw [← ht]
    rfl
  obtain ⟨key, nValue, h, rfl, hread⟩ := addressOf?_cases ha hhead
  obtain ⟨htype, hhash⟩ := (iteratorKey_begins h.type h.hashBytes).1 (List.cons_prefix_cons.1 hprefix).2
  have hle := height_le_of_lt h h' htype hhash htype' hhash' hlt
  have hstart := (not_lt_seekKey_iff h htype hhash).1 hseek
  have hcut : (end_ > 0 && key.blockHeight > end_.toInt) = false := by
    simp only [Bool.and_eq_false_iff, decide_eq_false_iff_not] at hend ⊢
    exact hend.imp_right fun hnot hgt => hnot (by omega)
  rw [asksEntry, hread, Option.any_some]
  exact asksAddress_iff.2 ⟨htype, hhash, hstart, hcut⟩

def addressMine (addressHash : Uint160) (end_ : Int32) (key : UInt8 × CAddressIndexKey) : Bool :=
  key.1 == dbAddressIndex && key.2.hashBytes == addressHash.1 && !(end_ > 0 && key.2.blockHeight > end_.toInt)

theorem head_of_getKey {K : Type} {unserialize : Decoder UInt8 K} {bytes : List UInt8} {key : UInt8 × K}
    (h : getKey unserialize bytes = some key) : bytes.head? = some key.1 := by
  cases bytes with
  | nil => cases h
  | cons c is =>
    obtain ⟨r, -, rfl⟩ := Option.map_eq_some_iff.1 h
    rfl

theorem addressMine_cases {key : UInt8 × CAddressIndexKey} (ha : a ∈ db.entries)
    (hkey : getKey CAddressIndexKey.unserialize a.1 = some key) (hmine : addressMine addressHash end_ key = true) :
    ∃ nValue, key.2.Storable ∧ a = (dbAddressIndex :: key.2.serialize, .amount nValue) ∧ addressOf? a = some (key.2, nValue) ∧
      key.2.hashBytes = addressHash.1 ∧ (end_ > 0 && key.2.blockHeight > end_.toInt) = false := by
  simp only [addressMine, Bool.and_eq_true, Bool.not_eq_true', beq_iff_eq] at hmine
  obtain ⟨⟨hfirst, hhash⟩, hcut⟩ := hmine
  have hhead := head_of_getKey hkey
  rw [hfirst] at hhead
  obtain ⟨key', nValue, hstorable, rfl, hread⟩ := addressOf?_cases ha hhead
  rw [getKey_of_decodes hstorable.decodes] at hkey
  cases hkey
  exact ⟨nValue, hstorable, rfl, hread, hhash, hcut⟩

theorem getKey_of_addressOf? {it : CAddressIndexKey × CAmount} (ha : a ∈ db.entries) (hit : addressOf? a = some it) :
    getKey CAddressIndexKey.unserialize a.1 = some (dbAddressIndex, it.1) ∧ DbValue.getAmount a.2 = some it.2 := by
  obtain ⟨key, nValue, h, rfl, hread⟩ := addressOf?_cases ha (head_of_addressOf? hit)
  rw [hread] at hit
  cases hit
  exact ⟨getKey_of_decodes h.decodes _, rfl⟩

theorem readAddressIndex_spec (htwin : ¬ AddressTwin db addressHash type start end_) :
    readAddressIndex db addressHash type start end_ =
      (true, db.addresses.filter fun it => AsksAddress addressHash type start end_ it.1) := by
  show readIndex CAddressIndexKey.unserialize DbValue.getAmount (addressMine addressHash end_) _ = _
  refine readIndex_spec db.stored (fun a ha it hit => getKey_of_addressOf? ha hit) ?_ ?_ asksEntry_pairwise ?_
  · intro a ha key hkey hmine
    obtain ⟨nValue, -, -, hentry, -⟩ := addressMine_cases ha hkey hmine
    exact ⟨nValue, hentry⟩
  · intro a ha it hit hasks
    obtain ⟨htype, hhash, hstart, hcut⟩ := asksAddress_iff.1 hasks
    obtain ⟨key, nValue, h, rfl, hread⟩ := addressOf?_cases ha (head_of_addressOf? hit)
    rw [hread] at hit
    cases hit
    refine ⟨?_, (not_lt_seekKey_iff h htype hhash).2 hstart⟩
    rw [addressMine, hhash, hcut]
    simp
  · intro a hfound it hit
    rw [Bool.eq_false_iff]
    intro hmine
    have ha := List.mem_of_find?_eq_some hfound
    rw [seek_eq_filter db.stored, List.mem_filter] at ha
    obtain ⟨nValue, h, rfl, hentry, hhash, hcut⟩ := addressMine_cases ha.1 (getKey_of_addressOf? ha.1 hit).1 hmine
    by_cases htype : (it.1.type : Int) = type % 256
    · have hstart := (not_lt_seekKey_iff h htype hhash).1 (by simpa using ha.2)
      have hno := List.find?_some hfound
      rw [hit, Option.any_some, asksAddress_iff.2 ⟨htype, hhash, hstart, hcut⟩] at hno
      cases hno
    · exact htwin ⟨_, it.1, nValue, hfound, hentry, hhash, htype, hcut⟩

/-! ## The address-unspent index -/

def unspentOf? (a : DbEntry) : Option (CAddressUnspentKey × CAddressUnspentValue) :=
  if a.1.head? = some dbAddressUnspentIndex then readEntry CAddressUnspentKey.unserialize DbValue.getUnspent a else none

def CBlockTreeDB.unspents (db : CBlockTreeDB) : List (CAddressUnspentKey × CAddressUnspentValue) :=
  db.entries.filterMap unspentOf?

def AsksUnspent (addressHash : Uint160) (type : Int) (key : CAddressUnspentKey) : Bool :=
  (key.type : Int) == type % 256 && key.hashBytes == addressHash.1

def UnspentTwin (db : CBlockTreeDB) (addressHash : Uint160) (type : Int) : Prop :=
  ∃ a key nValue, (seek db.entries (dbAddressUnspentIndex :: iteratorKey type addressHash)).find?
      (fun a => !(unspentOf? a).any fun it => AsksUnspent addressHash type it.1) = some a ∧
    unspentOf? a = some (key, nValue) ∧ key.hashBytes = addressHash.1 ∧ (key.type : Int) ≠ type % 256

theorem unspentOf?_serialize {key : CAddressUnspentKey} (h : key.Storable) (nValue : CAddressUnspentValue) :
    unspentOf? (dbAddressUnspentIndex :: key.serialize, .unspent nValue) = some (key, nValue) := by
  rw [unspentOf?, if_pos List.head?_cons, readEntry, getKey_of_decodes h.decodes]
  rfl

theorem unspentOf?_cases (ha : a ∈ db.entries) (hhead : a.1.head? = some dbAddressUnspentIndex) : ∃ key nValue, key.Storable ∧
    a = (dbAddressUnspentIndex :: key.serialize, .unspent nValue) ∧ unspentOf? a = some (key, nValue) := by
  obtain ⟨key, nValue, hstorable, rfl⟩ := db.addressUnspentIndex a ha hhead
  exact ⟨key, nValue, hstorable, rfl, unspentOf?_serialize hstorable nValue⟩

theorem head_of_unspentOf? {it : CAddressUnspentKey × CAddressUnspentValue} (h : unspentOf? a = some it) :
    a.1.head? = some dbAddressUnspentIndex := by
  by_contra hhead
  rw [unspentOf?, if_neg hhead] at h
  cases h

theorem asksUnspent_iff {key : CAddressUnspentKey} : AsksUnspent addressHash type key = true ↔
    (key.type : Int) = type % 256 ∧ key.hashBytes = addressHash.1 := by
  simp only [AsksUnspent, Bool.and_eq_true, beq_iff_eq]

theorem getKey_of_unspentOf? {it : CAddressUnspentKey × CAddressUnspentValue} (ha : a ∈ db.entries)
    (hit : unspentOf? a = some it) :
    getKey CAddressUnspentKey.unserialize a.1 = some (dbAddressUnspentIndex, it.1) ∧ DbValue.getUnspent a.2 = some it.2 := by
  obtain ⟨key, nValue, h, rfl, hread⟩ := unspentOf?_cases ha (head_of_unspentOf? hit)
  rw [hread] at hit
  cases hit
  exact ⟨getKey_of_decodes h.decodes _, rfl⟩

/-- The entries of an address are those whose keys begin with its type and hash. -/
theorem asksUnspent_iff_begins (ha : a ∈ db.entries) : (unspentOf? a).any (fun it => AsksUnspent addressHash type it.1) = true ↔
    (dbAddressUnspentIndex :: iteratorKey type addressHash) <+: a.1 := by
  by_cases hhead : a.1.head? = some dbAddressUnspentIndex
  · obtain ⟨key, nValue, h, rfl, hread⟩ := unspentOf?_cases ha hhead
    rw [hread, Option.any_some, asksUnspent_iff, List.cons_prefix_cons, and_iff_right rfl]
    exact (iteratorKey_begins h.type h.hashBytes).symm
  · rw [unspentOf?, if_neg hhead]
    simp only [Option.any_none, Bool.false_eq_true, false_iff]
    intro hprefix
    obtain ⟨t, ht⟩ := hprefix
    rw [← ht] at hhead
    exact hhead rfl

theorem readUnspent_spec (htwin : ¬ UnspentTwin db addressHash type) :
    readAddressUnspentIndex db addressHash type = (true, db.unspents.filter fun it => AsksUnspent addressHash type it.1) := by
  have hprefix {a : DbEntry} {it : CAddressUnspentKey × CAddressUnspentValue} (ha : a ∈ db.entries) (hit : unspentOf? a = some it)
      (hasks : AsksUnspent addressHash type it.1 = true) : (dbAddressUnspentIndex :: iteratorKey type addressHash) <+: a.1 := by
    rw [← asksUnspent_iff_begins ha, hit]
    exact hasks
  refine readIndex_spec db.stored (fun a ha it hit => getKey_of_unspentOf? ha hit) ?_ ?_ ?_ ?_
  · intro a ha key hkey hmine
    simp only [Bool.and_eq_true, beq_iff_eq] at hmine
    have hhead := head_of_getKey hkey
    rw [hmine.1] at hhead
    obtain ⟨key', nValue, h, rfl, hentry⟩ := unspentOf?_cases ha hhead
    rw [getKey_of_decodes h.decodes] at hkey
    cases hkey
    exact ⟨nValue, hentry⟩
  · intro a ha it hit hasks
    refine ⟨by simp [(asksUnspent_iff.1 hasks).2], ?_⟩
    obtain ⟨t, ht⟩ := hprefix ha hit hasks
    rw [← ht]
    exact not_append_lt
  · rw [seek_eq_filter db.stored]
    refine List.Pairwise.imp_of_mem ?_ (db.stored.filter _)
    intro a b ha hb hlt hasks
    obtain ⟨ha, hbehind⟩ := List.mem_filter.1 ha
    rw [asksUnspent_iff_begins (List.mem_filter.1 hb).1] at hasks
    rw [asksUnspent_iff_begins ha]
    exact prefix_of_between (by simpa using hbehind) hlt hasks
  · intro a hfound it hit
    rw [Bool.eq_false_iff]
    intro hmine
    simp only [beq_self_eq_true, Bool.true_and, beq_iff_eq] at hmine
    by_cases htype : (it.1.type : Int) = type % 256
    · have hno := List.find?_some hfound
      rw [hit, Option.any_some, asksUnspent_iff.2 ⟨htype, hmine⟩] at hno
      cases hno
    · exact htwin ⟨a, it.1, it.2, hfound, hit, hmine, htype⟩

/-! ## What is read -/

theorem addresses_pairwise : db.addresses.Pairwise fun it it' =>
    dbAddressIndex :: it.1.serialize < dbAddressIndex :: it'.1.serialize := by
  unfold CBlockTreeDB.addresses
  rw [List.pairwise_filterMap]
  refine List.Pairwise.imp_of_mem ?_ db.stored
  intro a b ha hb hlt it hit it' hit'
  obtain ⟨key, nValue, -, rfl, hread⟩ := addressOf?_cases ha (head_of_addressOf? hit)
  obtain ⟨key', nValue', -, rfl, hread'⟩ := addressOf?_cases hb (head_of_addressOf? hit')
  rw [hread] at hit
  rw [hread'] at hit'
  cases hit
  cases hit'
  exact hlt

theorem unspents_pairwise : db.unspents.Pairwise fun it it' => it.1.serialize < it'.1.serialize := by
  unfold CBlockTreeDB.unspents
  rw [List.pairwise_filterMap]
  refine List.Pairwise.imp_of_mem ?_ db.stored
  intro a b ha hb hlt it hit it' hit'
  obtain ⟨key, nValue, -, rfl, hread⟩ := unspentOf?_cases ha (head_of_unspentOf? hit)
  obtain ⟨key', nValue', -, rfl, hread'⟩ := unspentOf?_cases hb (head_of_unspentOf? hit')
  rw [hread] at hit
  rw [hread'] at hit'
  cases hit
  cases hit'
  rw [← append_lt_append_iff (p := [dbAddressUnspentIndex])]
  exact hlt

theorem asked_by_height : (db.addresses.filter fun it => AsksAddress addressHash type start end_ it.1).Pairwise
    fun it it' => it.1.blockHeight ≤ it'.1.blockHeight := by
  refine List.Pairwise.imp_of_mem ?_ (addresses_pairwise.filter _)
  intro it it' hit hit' hlt
  obtain ⟨hmem, hasks⟩ := List.mem_filter.1 hit
  obtain ⟨hmem', hasks'⟩ := List.mem_filter.1 hit'
  obtain ⟨htype, hhash, -⟩ := asksAddress_iff.1 hasks
  obtain ⟨htype', hhash', -⟩ := asksAddress_iff.1 hasks'
  exact height_le_of_lt (mem_addresses.1 hmem).1 (mem_addresses.1 hmem').1 htype hhash htype' hhash' hlt

/-- The entries that are asked for, in the order of their keys; for the address index that is
    the order of their heights. -/
theorem address_reads (db : CBlockTreeDB) (addressHash : Uint160) (type : Int) (start end_ : Int32) :
    (¬ AddressTwin db addressHash type start end_ → ∃ addressIndex,
      readAddressIndex db addressHash type start end_ = (true, addressIndex) ∧
      addressIndex = db.addresses.filter (fun it => AsksAddress addressHash type start end_ it.1) ∧
      addressIndex.Pairwise fun it it' => it.1.blockHeight ≤ it'.1.blockHeight) ∧
    (¬ UnspentTwin db addressHash type → ∃ unspentOutputs,
      readAddressUnspentIndex db addressHash type = (true, unspentOutputs) ∧
      unspentOutputs = db.unspents.filter (fun it => AsksUnspent addressHash type it.1) ∧
      unspentOutputs.Pairwise fun it it' => it.1.serialize < it'.1.serialize) := by
  constructor
  · intro htwin
    exact ⟨_, readAddressIndex_spec htwin, rfl, asked_by_height⟩
  · intro htwin
    exact ⟨_, readUnspent_spec htwin, rfl, unspents_pairwise.filter _⟩

/-! ## An address with two unspent outputs -/

def sampleHash : Uint160 := ⟨List.replicate 20 7, by decide⟩

def sampleUnspent (txhash : Uint256) (blockHeight : Int) : DbEntry :=
  (dbAddressUnspentIndex :: CAddressUnspentKey.serialize ⟨1, sampleHash.1, txhash, 0⟩, .unspent ⟨50, [], blockHeight⟩)

theorem sampleUnspent_head {txhash : Uint256} {blockHeight : Int} :
    (sampleUnspent txhash blockHeight).1.head? = some dbAddressUnspentIndex := rfl

def twoUnspent : CBlockTreeDB where
  entries := [sampleUnspent 1 10, sampleUnspent 2 5]
  stored := by unfold Stored; decide
  addressIndex := by
    intro a ha hhead
    simp only [List.mem_cons, List.not_mem_nil, or_false] at ha
    rcases ha with rfl | rfl <;> rw [sampleUnspent_head] at hhead <;> cases hhead
  addressUnspentIndex := by
    intro a ha _
    simp only [List.mem_cons, List.not_mem_nil, or_false] at ha
    rcases ha with rfl | rfl
    · exact ⟨_, _, ⟨by decide, by decide, by decide, by decide⟩, rfl⟩
    · exact ⟨_, _, ⟨by decide, by decide, by decide, by decide⟩, rfl⟩

theorem unspent_not_by_height :
    ¬ (readAddressUnspentIndex twoUnspent sampleHash 1).2.Pairwise fun it it' => it.2.blockHeight ≤ it'.2.blockHeight := by
  decide

end Zumy.Blocks
