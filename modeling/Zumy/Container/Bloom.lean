/-
  Zumy.Container.Bloom — bloom.cpp: `CBloomFilter`, as a peer sends it and as the node updates it.

  The hash is a parameter: nothing depends on it. `Hash` divides by the number of bits: with
  no bytes it is undefined, `none`.

  - `insert_spec`, `contains_spec`: what inserting a key does, and what is contained.
  - `Grows.covers`: what is contained stays so when bits are added.
  - `isRelevantAndUpdate_spec`: the same for a transaction and the outpoints it adds.
-/
import Zumy.Lib.Bytes
import Zumy.Lib.Run
import Zumy.Primitives

namespace Zumy.Bloom

open Zumy.Lib

structure CBloomFilter where
  vData : List UInt8
  isFull : Bool
  isEmpty : Bool
  nHashFuncs : UInt32
  nTweak : UInt32
  nFlags : UInt8

def BLOOM_UPDATE_ALL : UInt8 := 1
def BLOOM_UPDATE_P2PUBKEY_ONLY : UInt8 := 2
def BLOOM_UPDATE_MASK : UInt8 := 3

def hashBytes (hash : Uint256) : List UInt8 := leBytes 32 hash
def outpointBytes (outpoint : COutPoint) : List UInt8 := leBytes 32 outpoint.hash ++ leBytes 4 outpoint.n

/-- `vData[nIndex >> 3] |= (1 << (7 & nIndex))` -/
def orBit (vData : List UInt8) (nIndex : Nat) : List UInt8 := vData.modify (nIndex / 8) (· ||| UInt8.ofNat (1 <<< (nIndex % 8)))

/-- `vData[nIndex >> 3] & (1 << (7 & nIndex))` -/
def hasBit (vData : List UInt8) (nIndex : Nat) : Bool := (vData.getD (nIndex / 8) 0 &&& UInt8.ofNat (1 <<< (nIndex % 8))) != 0

section Model

variable (murmurHash3 : UInt32 → List UInt8 → UInt32)

namespace CBloomFilter

def hash (f : CBloomFilter) (nHashNum : Nat) (vDataToHash : List UInt8) : Option Nat :=
  if f.vData.length * 8 = 0 then none
  else some ((murmurHash3 (UInt32.ofNat nHashNum * 0xFBA4C795 + f.nTweak) vDataToHash).toNat % (f.vData.length * 8))

def insert (f : CBloomFilter) (vKey : List UInt8) : Option CBloomFilter :=
  if f.isFull then some f
  else do
    let vData ← (List.range f.nHashFuncs.toNat).foldlM (fun vData i => (f.hash murmurHash3 i vKey).map (orBit vData)) f.vData
    return { f with vData := vData, isEmpty := false }

def allBits (f : CBloomFilter) (vKey : List UInt8) : List Nat → Option Bool
  | [] => some true
  | i :: is => do
    let nIndex ← f.hash murmurHash3 i vKey
    if hasBit f.vData nIndex then allBits f vKey is else return false

def contains (f : CBloomFilter) (vKey : List UInt8) : Option Bool :=
  if f.isFull then some true
  else if f.isEmpty then some false
  else f.allBits murmurHash3 vKey (List.range f.nHashFuncs.toNat)

def clear (f : CBloomFilter) : CBloomFilter :=
  { f with vData := List.replicate f.vData.length 0, isFull := false, isEmpty := true }

def reset (f : CBloomFilter) (nNewTweak : UInt32) : CBloomFilter := { f.clear with nTweak := nNewTweak }

def updateEmptyFull (f : CBloomFilter) : CBloomFilter :=
  { f with isFull := f.vData.all (· == 0xff), isEmpty := f.vData.all (· == 0) }

end CBloomFilter

/-! ## Scripts -/

def OP_PUSHDATA1 : UInt8 := 0x4c
def OP_PUSHDATA2 : UInt8 := 0x4d
def OP_PUSHDATA4 : UInt8 := 0x4e

def sizeBytes (opcode : UInt8) : Nat :=
  if opcode = OP_PUSHDATA1 then 1 else if opcode = OP_PUSHDATA2 then 2 else if opcode = OP_PUSHDATA4 then 4 else 0

def pushSize (opcode : UInt8) (pc : CScript) : Nat :=
  if opcode < OP_PUSHDATA1 then opcode.toNat else ofLeBytes (pc.take (sizeBytes opcode))

/-- `GetOp`: the data of the next opcode and the script behind it, unless the script ends there. -/
def getOpData : CScript → Option (List UInt8 × CScript)
  | [] => none
  | opcode :: pc =>
    if OP_PUSHDATA4 < opcode then some ([], pc)
    else if pc.length < sizeBytes opcode then none
    else
      let data := pc.drop (sizeBytes opcode)
      if data.length < pushSize opcode pc then none else some (data.take (pushSize opcode pc), data.drop (pushSize opcode pc))

theorem length_getOpData {script rest : CScript} {data : List UInt8} (h : getOpData script = some (data, rest)) :
    rest.length < script.length := by
  cases script with
  | nil => cases h
  | cons opcode pc =>
    unfold getOpData at h
    dsimp only at h
    split at h
    · cases h
      exact Nat.lt_succ_self _
    · split at h
      · cases h
      · split at h
        · cases h
        · cases h
          rw [List.length_drop, List.length_drop, List.length_cons]
          omega

def scriptData (script : CScript) : List (List UInt8) :=
  match _h : getOpData script with
  | none => []
  | some (data, rest) => data :: scriptData rest
termination_by script.length
decreasing_by exact length_getOpData _h

/-! ## Transactions -/

namespace CBloomFilter

def matchesData (f : CBloomFilter) : List (List UInt8) → Option Bool
  | [] => some false
  | data :: rest => do
    let found ← if data.length ≠ 0 then f.contains murmurHash3 data else some false
    if found then return true else matchesData f rest

variable (solvesToKey : CScript → Bool)

/-- One output of the transaction: what a match adds. `solvesToKey` is `Solver`'s answer that
the script is pay-to-pubkey or multisig. Behind the filter and `fFound`, the keys inserted. -/
def updateOutput (hash : Uint256) (s : CBloomFilter × Bool × List (List UInt8)) (out : Nat × CTxOut) :
    Option (CBloomFilter × Bool × List (List UInt8)) := do
  let found ← s.1.matchesData murmurHash3 (scriptData out.2.scriptPubKey)
  if found then
    let update := s.1.nFlags &&& BLOOM_UPDATE_MASK
    if update = BLOOM_UPDATE_ALL ∨ (update = BLOOM_UPDATE_P2PUBKEY_ONLY ∧ solvesToKey out.2.scriptPubKey) then
      let f ← s.1.insert murmurHash3 (outpointBytes ⟨hash, out.1⟩)
      return (f, true, s.2.2 ++ [outpointBytes ⟨hash, out.1⟩])
    else return (s.1, true, s.2.2)
  else return s

def matchesInput (f : CBloomFilter) : List CTxIn → Option Bool
  | [] => some false
  | txin :: rest => do
    let spends ← f.contains murmurHash3 (outpointBytes txin.prevout)
    if spends then return true
    else
      let found ← f.matchesData murmurHash3 (scriptData txin.scriptSig)
      if found then return true else matchesInput f rest

def isRelevantAndUpdate (f : CBloomFilter) (tx : CTransaction) : Option (CBloomFilter × Bool × List (List UInt8)) :=
  if f.isFull then some (f, true, [])
  else if f.isEmpty then some (f, false, [])
  else do
    let fFound ← f.contains murmurHash3 (hashBytes tx.hash)
    let s ← ((List.range tx.vout.length).zip tx.vout).foldlM (updateOutput murmurHash3 solvesToKey tx.hash) (f, fFound, [])
    if s.2.1 then return s
    else
      let fFound ← s.1.matchesInput murmurHash3 tx.vin
      return (s.1, fFound, s.2.2)

end CBloomFilter

/-! ## Runs of a peer's filter -/

inductive Event
  | insert (vKey : List UInt8)
  | insertOutpoint (outpoint : COutPoint)
  | insertHash (hash : Uint256)
  | contains (vKey : List UInt8)
  | isRelevantAndUpdate (tx : CTransaction)

structure State where
  filter : CBloomFilter
  inserted : List (List UInt8)

variable (solvesToKey : CScript → Bool)

def step (s : State) : Event → Option State
  | .insert vKey => (s.filter.insert murmurHash3 vKey).map fun f => ⟨f, s.inserted ++ [vKey]⟩
  | .insertOutpoint outpoint =>
    (s.filter.insert murmurHash3 (outpointBytes outpoint)).map fun f => ⟨f, s.inserted ++ [outpointBytes outpoint]⟩
  | .insertHash hash => (s.filter.insert murmurHash3 (hashBytes hash)).map fun f => ⟨f, s.inserted ++ [hashBytes hash]⟩
  | .contains vKey => (s.filter.contains murmurHash3 vKey).map fun _ => s
  | .isRelevantAndUpdate tx =>
    (s.filter.isRelevantAndUpdate murmurHash3 solvesToKey tx).map fun r => ⟨r.1, s.inserted ++ r.2.2⟩

end Model

/-! ## Bits -/

@[simp] theorem length_orBit {v : List UInt8} {p : Nat} : (orBit v p).length = v.length := List.length_modify _ _ _

theorem hasBit_eq {v : List UInt8} {q : Nat} : hasBit v q = (v.getD (q / 8) 0).toNat.testBit (q % 8) := by
  have hone : (UInt8.ofNat (1 <<< (q % 8))).toNat = 2 ^ (q % 8) := by
    rw [Nat.shiftLeft_eq, Nat.one_mul, UInt8.toNat_ofNat']
    exact Nat.mod_eq_of_lt (Nat.pow_lt_pow_right (by decide) (Nat.mod_lt q (by decide)))
  have hzero : hasBit v q = decide ((v.getD (q / 8) 0 &&& UInt8.ofNat (1 <<< (q % 8))).toNat ≠ 0) := by
    unfold hasBit
    rw [bne, Bool.eq_iff_iff]
    simp [← UInt8.toNat_inj]
  rw [hzero, UInt8.toNat_and, hone, Nat.and_two_pow]
  cases (v.getD (q / 8) 0).toNat.testBit (q % 8) <;> simp

theorem hasBit_orBit {v : List UInt8} {p q : Nat} (hp : p < v.length * 8) : hasBit (orBit v p) q = (hasBit v q || decide (q = p)) := by
  rw [hasBit_eq, hasBit_eq, orBit, List.getD_eq_getElem?_getD, List.getD_eq_getElem?_getD]
  by_cases hbyte : p / 8 = q / 8
  · have hlen : q / 8 < v.length := by omega
    have hone : (UInt8.ofNat (1 <<< (p % 8))).toNat = 2 ^ (p % 8) := by
      rw [Nat.shiftLeft_eq, Nat.one_mul, UInt8.toNat_ofNat']
      exact Nat.mod_eq_of_lt (Nat.pow_lt_pow_right (by decide) (Nat.mod_lt p (by decide)))
    rw [hbyte, List.getElem?_modify_eq, List.getElem?_eq_getElem hlen]
    simp only [Option.map_eq_map, Option.map_some, Option.getD_some, UInt8.toNat_or, hone, Nat.testBit_or, Nat.testBit_two_pow]
    congr 1
    rw [decide_eq_decide]
    omega
  · have hne : q ≠ p := by
      intro heq
      exact hbyte (by rw [heq])
    rw [List.getElem?_modify_ne _ _ hbyte, decide_eq_false hne, Bool.or_false]

theorem hasBit_replicate {n q : Nat} : hasBit (List.replicate n 0) q = false := by
  rw [hasBit_eq, List.getD_eq_getElem?_getD, List.getElem?_replicate]
  split <;> exact Nat.zero_testBit _

def orBits (v : List UInt8) (ps : List Nat) : List UInt8 := ps.foldl orBit v

theorem length_orBits {v : List UInt8} {ps : List Nat} : (orBits v ps).length = v.length := by
  induction ps generalizing v with
  | nil => rfl
  | cons p ps ih => exact ih.trans length_orBit

theorem hasBit_orBits {v : List UInt8} {ps : List Nat} {q : Nat} (hps : ∀ p ∈ ps, p < v.length * 8) :
    hasBit (orBits v ps) q = (hasBit v q || decide (q ∈ ps)) := by
  induction ps generalizing v with
  | nil => simp [orBits]
  | cons p ps ih =>
    obtain ⟨hp, hrest⟩ := List.forall_mem_cons.1 hps
    show hasBit (orBits (orBit v p) ps) q = _
    rw [ih fun p' hp' => by rw [length_orBit]; exact hrest p' hp', hasBit_orBit hp, Bool.or_assoc]
    simp [List.mem_cons]

/-! ## One filter -/

section Filter

variable {murmurHash3 : UInt32 → List UInt8 → UInt32} {f f' : CBloomFilter} {vKey : List UInt8}

namespace CBloomFilter

/-- The bit that hash number `i` of a key stands for -/
def index (murmurHash3 : UInt32 → List UInt8 → UInt32) (f : CBloomFilter) (vKey : List UInt8) (i : Nat) : Nat :=
  (murmurHash3 (UInt32.ofNat i * 0xFBA4C795 + f.nTweak) vKey).toNat % (f.vData.length * 8)

def Sound (f : CBloomFilter) : Prop := f.isFull = true ∨ f.vData ≠ []

def Covers (murmurHash3 : UInt32 → List UInt8 → UInt32) (f : CBloomFilter) (vKey : List UInt8) : Prop :=
  f.isFull = true ∨ f.isEmpty = false ∧ ∀ i < f.nHashFuncs.toNat, hasBit f.vData (f.index murmurHash3 vKey i) = true

structure Grows (f f' : CBloomFilter) : Prop where
  length : f'.vData.length = f.vData.length
  isFull : f'.isFull = f.isFull
  nHashFuncs : f'.nHashFuncs = f.nHashFuncs
  nTweak : f'.nTweak = f.nTweak
  nFlags : f'.nFlags = f.nFlags
  isEmpty : f.isEmpty = false → f'.isEmpty = false
  bits : ∀ q, hasBit f.vData q = true → hasBit f'.vData q = true

theorem Grows.refl (f : CBloomFilter) : Grows f f := ⟨rfl, rfl, rfl, rfl, rfl, id, fun _ => id⟩

theorem Grows.trans {f'' : CBloomFilter} (h : Grows f f') (h' : Grows f' f'') : Grows f f'' where
  length := h'.length.trans h.length
  isFull := h'.isFull.trans h.isFull
  nHashFuncs := h'.nHashFuncs.trans h.nHashFuncs
  nTweak := h'.nTweak.trans h.nTweak
  nFlags := h'.nFlags.trans h.nFlags
  isEmpty hempty := h'.isEmpty (h.isEmpty hempty)
  bits q hq := h'.bits q (h.bits q hq)

theorem Grows.index_eq (h : Grows f f') (i : Nat) : f'.index murmurHash3 vKey i = f.index murmurHash3 vKey i := by
  rw [index, index, h.nTweak, h.length]

theorem Grows.covers (h : Grows f f') (hkey : f.Covers murmurHash3 vKey) : f'.Covers murmurHash3 vKey := by
  rcases hkey with hfull | ⟨hempty, hbits⟩
  · exact Or.inl (h.isFull.trans hfull)
  · refine Or.inr ⟨h.isEmpty hempty, fun i hi => ?_⟩
    rw [h.index_eq]
    exact h.bits _ (hbits i (h.nHashFuncs ▸ hi))

theorem Grows.sound (h : Grows f f') (hf : f.Sound) : f'.Sound := by
  rcases hf with hfull | hdata
  · exact Or.inl (h.isFull.trans hfull)
  · refine Or.inr fun hnil => hdata (List.eq_nil_of_length_eq_zero ?_)
    rw [← h.length, hnil]
    rfl

theorem hash_eq (h : f.vData ≠ []) (i : Nat) : f.hash murmurHash3 i vKey = some (f.index murmurHash3 vKey i) := by
  have hlen : f.vData.length ≠ 0 := fun hlen => h (List.eq_nil_of_length_eq_zero hlen)
  exact if_neg (by omega)

theorem index_lt (h : f.vData ≠ []) (i : Nat) : f.index murmurHash3 vKey i < f.vData.length * 8 := by
  have hlen : f.vData.length ≠ 0 := fun hlen => h (List.eq_nil_of_length_eq_zero hlen)
  exact Nat.mod_lt _ (by omega)

def keyBits (murmurHash3 : UInt32 → List UInt8 → UInt32) (f : CBloomFilter) (vKey : List UInt8) : List Nat :=
  (List.range f.nHashFuncs.toNat).map (f.index murmurHash3 vKey)

theorem insert_eq (hfull : f.isFull = false) (h : f.vData ≠ []) :
    f.insert murmurHash3 vKey = some { f with vData := orBits f.vData (f.keyBits murmurHash3 vKey), isEmpty := false } := by
  have hloop : ∀ (is : List Nat) (v : List UInt8),
      is.foldlM (fun vData i => (f.hash murmurHash3 i vKey).map (orBit vData)) v = some (orBits v (is.map (f.index murmurHash3 vKey))) := by
    intro is
    induction is with
    | nil => exact fun _ => rfl
    | cons i is ih =>
      intro v
      rw [List.foldlM_cons, hash_eq h]
      exact ih _
  unfold insert
  rw [if_neg (by rw [hfull]; exact Bool.false_ne_true), hloop]
  rfl

variable (murmurHash3) in
theorem insert_spec (h : f.Sound) (vKey : List UInt8) : ∃ f', f.insert murmurHash3 vKey = some f' ∧ Grows f f' ∧ f'.Covers murmurHash3 vKey := by
  cases hfull : f.isFull with
  | true => exact ⟨f, if_pos hfull, Grows.refl f, Or.inl hfull⟩
  | false =>
    have hdata : f.vData ≠ [] := h.resolve_left (by rw [hfull]; exact Bool.false_ne_true)
    have hbits : ∀ p ∈ f.keyBits murmurHash3 vKey, p < f.vData.length * 8 := by
      intro p hp
      obtain ⟨i, -, rfl⟩ := List.mem_map.1 hp
      exact index_lt hdata i
    have hgrows : Grows f { f with vData := orBits f.vData (f.keyBits murmurHash3 vKey), isEmpty := false } := by
      refine ⟨length_orBits, rfl, rfl, rfl, rfl, fun _ => rfl, fun q hq => ?_⟩
      rw [hasBit_orBits hbits, hq, Bool.true_or]
    refine ⟨_, insert_eq hfull hdata, hgrows, Or.inr ⟨rfl, fun i hi => ?_⟩⟩
    rw [hgrows.index_eq, hasBit_orBits hbits]
    have hmem : f.index murmurHash3 vKey i ∈ f.keyBits murmurHash3 vKey := List.mem_map_of_mem (List.mem_range.2 hi)
    rw [decide_eq_true hmem, Bool.or_true]

theorem allBits_eq (h : f.vData ≠ []) (is : List Nat) :
    f.allBits murmurHash3 vKey is = some (is.all fun i => hasBit f.vData (f.index murmurHash3 vKey i)) := by
  induction is with
  | nil => rfl
  | cons i is ih =>
    rw [allBits, hash_eq h, Option.bind_eq_bind, Option.bind_some, ih, List.all_cons]
    cases hasBit f.vData (f.index murmurHash3 vKey i) <;> rfl

variable (murmurHash3) in
theorem contains_spec (h : f.Sound) (vKey : List UInt8) :
    ∃ found, f.contains murmurHash3 vKey = some found ∧ (found = true ↔ f.Covers murmurHash3 vKey) := by
  unfold contains Covers
  cases hfull : f.isFull with
  | true => exact ⟨true, rfl, by simp⟩
  | false =>
    have hdata : f.vData ≠ [] := h.resolve_left (by rw [hfull]; exact Bool.false_ne_true)
    cases hempty : f.isEmpty with
    | true => exact ⟨false, rfl, by simp⟩
    | false =>
      refine ⟨_, allBits_eq hdata _, ?_⟩
      simp

theorem contains_of_covers (h : f.Sound) (hkey : f.Covers murmurHash3 vKey) : f.contains murmurHash3 vKey = some true := by
  obtain ⟨found, hfound, hiff⟩ := contains_spec murmurHash3 h vKey
  rw [hfound, hiff.2 hkey]

/-! ## Transactions -/

variable (murmurHash3) in
theorem matchesData_isSome (h : f.Sound) (datas : List (List UInt8)) : ∃ found, f.matchesData murmurHash3 datas = some found := by
  induction datas with
  | nil => exact ⟨false, rfl⟩
  | cons data rest ih =>
    obtain ⟨found, hrest⟩ := ih
    obtain ⟨b, hb, -⟩ := contains_spec murmurHash3 h data
    unfold matchesData
    rw [hrest, hb]
    by_cases hlen : data.length ≠ 0
    · rw [if_pos hlen]
      cases b
      · exact ⟨found, rfl⟩
      · exact ⟨true, rfl⟩
    · rw [if_neg hlen]
      exact ⟨found, rfl⟩

variable (murmurHash3) in
theorem matchesInput_isSome (h : f.Sound) (vin : List CTxIn) : ∃ found, f.matchesInput murmurHash3 vin = some found := by
  induction vin with
  | nil => exact ⟨false, rfl⟩
  | cons txin rest ih =>
    obtain ⟨found, hrest⟩ := ih
    obtain ⟨spends, hspends, -⟩ := contains_spec murmurHash3 h (outpointBytes txin.prevout)
    obtain ⟨b, hb⟩ := matchesData_isSome murmurHash3 h (scriptData txin.scriptSig)
    unfold matchesInput
    rw [hspends, hb, hrest]
    cases spends
    · cases b
      · exact ⟨found, rfl⟩
      · exact ⟨true, rfl⟩
    · exact ⟨true, rfl⟩

variable {solvesToKey : CScript → Bool}

/-- What a loop over a transaction keeps: the filter only grows, and covers what was inserted. -/
structure Updated (murmurHash3 : UInt32 → List UInt8 → UInt32) (f : CBloomFilter) (s : CBloomFilter × Bool × List (List UInt8)) : Prop where
  grows : Grows f s.1
  covers : ∀ vKey ∈ s.2.2, s.1.Covers murmurHash3 vKey

variable (solvesToKey) in
theorem updateOutput_spec {s : CBloomFilter × Bool × List (List UInt8)} (hf : f.Sound) (h : Updated murmurHash3 f s) (hash : Uint256)
    (out : Nat × CTxOut) : ∃ s', updateOutput murmurHash3 solvesToKey hash s out = some s' ∧ Updated murmurHash3 f s' := by
  have hsound := h.grows.sound hf
  obtain ⟨found, hfound⟩ := matchesData_isSome murmurHash3 hsound (scriptData out.2.scriptPubKey)
  obtain ⟨f', hinsert, hgrows, hcovers⟩ := insert_spec murmurHash3 hsound (outpointBytes ⟨hash, out.1⟩)
  unfold updateOutput
  rw [hfound, hinsert, Option.bind_eq_bind, Option.bind_some]
  dsimp only
  cases found with
  | false => exact ⟨s, rfl, h⟩
  | true =>
    rw [if_pos rfl]
    split
    · refine ⟨_, rfl, h.grows.trans hgrows, ?_⟩
      intro vKey hmem
      rcases List.mem_append.1 hmem with hold | hnew
      · exact hgrows.covers (h.covers vKey hold)
      · rw [List.mem_singleton.1 hnew]
        exact hcovers
    · exact ⟨_, rfl, h.grows, h.covers⟩

variable (solvesToKey) in
theorem updateOutputs_spec {s : CBloomFilter × Bool × List (List UInt8)} (hf : f.Sound) (h : Updated murmurHash3 f s) (hash : Uint256)
    (outs : List (Nat × CTxOut)) :
    ∃ s', outs.foldlM (updateOutput murmurHash3 solvesToKey hash) s = some s' ∧ Updated murmurHash3 f s' := by
  induction outs generalizing s with
  | nil => exact ⟨s, rfl, h⟩
  | cons out outs ih =>
    obtain ⟨s', hs', hupdated⟩ := updateOutput_spec solvesToKey hf h hash out
    rw [List.foldlM_cons, hs']
    exact ih hupdated

variable (murmurHash3 solvesToKey) in
theorem isRelevantAndUpdate_spec (h : f.Sound) (tx : CTransaction) :
    ∃ s, f.isRelevantAndUpdate murmurHash3 solvesToKey tx = some s ∧ Updated murmurHash3 f s := by
  have hstart : ∀ fFound, Updated murmurHash3 f (f, fFound, []) := fun fFound => ⟨Grows.refl f, by simp⟩
  obtain ⟨fFound, hfound, -⟩ := contains_spec murmurHash3 h (hashBytes tx.hash)
  obtain ⟨s, hs, hupdated⟩ := updateOutputs_spec solvesToKey h (hstart fFound) tx.hash ((List.range tx.vout.length).zip tx.vout)
  obtain ⟨found, hinput⟩ := matchesInput_isSome murmurHash3 (hupdated.grows.sound h) tx.vin
  unfold isRelevantAndUpdate
  split
  · exact ⟨_, rfl, hstart true⟩
  · split
    · exact ⟨_, rfl, hstart false⟩
    · rw [hfound, Option.bind_eq_bind, Option.bind_some, hs, Option.bind_eq_bind, Option.bind_some, hinput]
      cases s.2.1 with
      | true => exact ⟨s, rfl, hupdated⟩
      | false => exact ⟨_, rfl, hupdated.grows, hupdated.covers⟩

theorem sound_updateEmptyFull (f : CBloomFilter) : f.updateEmptyFull.Sound := by
  cases hdata : f.vData with
  | nil => exact Or.inl (by rw [updateEmptyFull, hdata]; rfl)
  | cons b rest =>
    refine Or.inr ?_
    show f.vData ≠ []
    rw [hdata]
    exact List.cons_ne_nil b rest

/-! ## Runs -/

/-- What every call keeps: it divides by no zero, and all keys so far are covered. -/
structure Inv (murmurHash3 : UInt32 → List UInt8 → UInt32) (s : State) : Prop where
  sound : s.filter.Sound
  covers : ∀ vKey ∈ s.inserted, s.filter.Covers murmurHash3 vKey

theorem Inv.update {s : State} (h : Inv murmurHash3 s) (hgrows : Grows s.filter f') {keys : List (List UInt8)}
    (hkeys : ∀ vKey ∈ keys, f'.Covers murmurHash3 vKey) : Inv murmurHash3 ⟨f', s.inserted ++ keys⟩ := by
  refine ⟨hgrows.sound h.sound, fun vKey hmem => ?_⟩
  rcases List.mem_append.1 hmem with hold | hnew
  · exact hgrows.covers (h.covers vKey hold)
  · exact hkeys vKey hnew

theorem step_insert {s : State} (h : Inv murmurHash3 s) (vKey : List UInt8) :
    ∃ s', (s.filter.insert murmurHash3 vKey).map (fun f => ⟨f, s.inserted ++ [vKey]⟩) = some s' ∧ Inv murmurHash3 s' := by
  obtain ⟨f', hf', hgrows, hcovers⟩ := insert_spec murmurHash3 h.sound vKey
  rw [hf']
  refine ⟨_, rfl, h.update hgrows ?_⟩
  intro vKey' hmem
  rw [List.mem_singleton.1 hmem]
  exact hcovers

variable (solvesToKey) in
theorem step_spec {s : State} (h : Inv murmurHash3 s) (e : Event) : ∃ s', step murmurHash3 solvesToKey s e = some s' ∧ Inv murmurHash3 s' := by
  cases e with
  | insert vKey => exact step_insert h vKey
  | insertOutpoint outpoint => exact step_insert h (outpointBytes outpoint)
  | insertHash hash => exact step_insert h (hashBytes hash)
  | contains vKey =>
    obtain ⟨found, hfound, -⟩ := contains_spec murmurHash3 h.sound vKey
    exact ⟨s, by rw [step, hfound]; rfl, h⟩
  | isRelevantAndUpdate tx =>
    obtain ⟨r, hr, hupdated⟩ := isRelevantAndUpdate_spec murmurHash3 solvesToKey h.sound tx
    exact ⟨_, by rw [step, hr]; rfl, h.update hupdated.grows hupdated.covers⟩

/-- Whatever a peer's filter holds, and in whatever order it is used behind `UpdateEmptyFull` -/
theorem peer_run (f : CBloomFilter) (es : List Event) : ∃ s, run (step murmurHash3 solvesToKey) ⟨f.updateEmptyFull, []⟩ es = some s ∧
    ∀ vKey ∈ s.inserted, s.filter.contains murmurHash3 vKey = some true := by
  have hstart : Inv murmurHash3 ⟨f.updateEmptyFull, []⟩ := ⟨sound_updateEmptyFull f, by simp⟩
  have hkept : ∀ s e s', Inv murmurHash3 s → step murmurHash3 solvesToKey s e = some s' → Inv murmurHash3 s' := by
    intro s e s' h hstep
    obtain ⟨t, ht, hinv⟩ := step_spec solvesToKey h e
    cases ht.symm.trans hstep
    exact hinv
  have hdefined : ∀ s e, Inv murmurHash3 s → (step murmurHash3 solvesToKey s e).isSome := by
    intro s e h
    obtain ⟨t, ht, -⟩ := step_spec solvesToKey h e
    rw [ht]
    rfl
  have hmeets : Meets (step murmurHash3 solvesToKey) (fun _ _ => True) ⟨f.updateEmptyFull, []⟩ es := meets_of_forall fun _ _ => trivial
  obtain ⟨s, hs⟩ := Option.isSome_iff_exists.1
    (run_isSome_of_meets (Inv murmurHash3) (fun s e s' h _ => hkept s e s' h) (fun s e h _ => hdefined s e h) hmeets hstart)
  have hinv := run_inv (Inv murmurHash3) hkept hstart hs
  exact ⟨s, hs, fun vKey hmem => contains_of_covers hinv.sound (hinv.covers vKey hmem)⟩

end CBloomFilter

end Filter

end Zumy.Bloom
