/-
  Zumy.Mempool.Indexes — the address index and the spent index of the pool (txmempool.cpp).

  `mapAddress` and `mapSpent` are written by other calls than those that write `mapTx`. What
  they are to hold is a function of the transactions that wait (`IndexExact`). Of a pool,
  `content` keeps what the indexes depend on; adding a transaction and removing one act on it
  as `add` and `drop`, and what only counts or links leaves it alone.

  Every route on which a transaction leaves the pool goes through `removeUnchecked`, but
  one: `_clear` empties the pool and not its indexes.

  - `event_inv`: an event keeps the indexes, unless it clears a pool that is not empty.
-/
import Zumy.Blocks.Indexes
import Zumy.Blocks.TxIds
import Zumy.Lib.Run
import Zumy.Lib.Shadow
import Zumy.Mempool.Model

namespace Zumy.Mempool

open Zumy.Lib Zumy.Blocks

/-! ## What the indexes depend on -/

section Pairs

variable {κ ν : Type} [DecidableEq κ] {m : κ → Option ν} {l : List (κ × ν)} {k : κ} {v : ν}

theorem foldl_erasePair (keys : List κ) (m : κ → Option ν) :
    keys.foldl CTxMemPool.erasePair m = fun k => if k ∈ keys then none else m k := by
  induction keys generalizing m with
  | nil => simp
  | cons key keys ih =>
    rw [List.foldl_cons, ih]
    funext k
    by_cases hk : k = key <;> simp [CTxMemPool.erasePair, hk]

theorem foldl_insertPair (hnew : ∀ kv ∈ l, m kv.1 = none) (hnodup : (l.map Prod.fst).Nodup) :
    l.foldl CTxMemPool.insertPair m k = some v ↔ m k = some v ∨ (k, v) ∈ l := by
  induction l generalizing m with
  | nil => simp
  | cons kv l ih =>
    rw [List.map_cons, List.nodup_cons] at hnodup
    have hfirst : CTxMemPool.insertPair m kv = Function.update m kv.1 (some kv.2) := by
      simp [CTxMemPool.insertPair, hnew kv (by simp)]
    rw [List.foldl_cons, hfirst, ih ?_ hnodup.2, Function.update_apply, List.mem_cons]
    · by_cases hk : k = kv.1
      · have hnone := hnew kv (by simp)
        rw [← hk] at hnone
        rw [if_pos hk, hnone]
        constructor
        · intro h
          rcases h with h | h
          · cases h
            exact .inr (.inl (by rw [hk]))
          · exact .inr (.inr h)
        · intro h
          rcases h with h | h | h
          · cases h
          · exact .inl (by rw [← h])
          · exact .inr h
      · rw [if_neg hk]
        constructor
        · exact fun h => h.imp_right .inr
        · intro h
          rcases h with h | h | h
          · exact .inl h
          · exact absurd (congrArg Prod.fst h) hk
          · exact .inr h
    · intro kv' hkv'
      have hne : kv'.1 ≠ kv.1 := fun heq => hnodup.1 (heq ▸ List.mem_map_of_mem hkv')
      rw [Function.update_of_ne hne]
      exact hnew kv' (by simp [hkv'])

end Pairs

namespace CTxMemPool

variable (GetOutputFor : COutPoint → CTxOut)

/-- The indexes hold the deltas and the spent outputs of the transactions in the pool, and
    nothing else; a transaction's inputs and outputs have a delta each. -/
structure IndexExact (s : CTxMemPool) : Prop where
  once : ∀ (it : Uint256) (e : CTxMemPoolEntry), s.mapTx[it]? = some e → ((addressDeltas GetOutputFor e).map Prod.fst).Nodup
  address : ∀ k d, s.mapAddress k = some d ↔
    ∃ (it : Uint256) (e : CTxMemPoolEntry), s.mapTx[it]? = some e ∧ (k, d) ∈ addressDeltas GetOutputFor e
  spent : ∀ k v, s.mapSpent k = some v ↔
    ∃ (it : Uint256) (e : CTxMemPoolEntry), s.mapTx[it]? = some e ∧ (k, v) ∈ spentValues GetOutputFor e

end CTxMemPool

abbrev Waiting := CTransaction × Int

structure Content where
  waiting : Uint256 → Option Waiting
  next : COutPoint → Option Uint256
  address : CMempoolAddressDeltaKey → Option CMempoolAddressDelta
  addressKeys : Uint256 → Option (List CMempoolAddressDeltaKey)
  spent : CSpentIndexKey → Option CSpentIndexValue
  spentKeys : Uint256 → Option (List CSpentIndexKey)

namespace CTxMemPool

variable (s : CTxMemPool)

def content : Content where
  waiting it := (s.mapTx[it]?).map fun e => (e.tx, e.nTime)
  next o := s.mapNextTx[o]?
  address := s.mapAddress
  addressKeys it := s.mapAddressInserted[it]?
  spent := s.mapSpent
  spentKeys it := s.mapSpentInserted[it]?

end CTxMemPool

namespace Waiting

variable (GetOutputFor : COutPoint → CTxOut) (p : Waiting)

def deltas : List (CMempoolAddressDeltaKey × CMempoolAddressDelta) := CTxMemPool.addressDeltas GetOutputFor (.new p.1 0 p.2 0)

def values : List (CSpentIndexKey × CSpentIndexValue) := CTxMemPool.spentValues GetOutputFor (.new p.1 0 p.2 0)

def prevouts : List COutPoint := p.1.vin.map CTxIn.prevout

end Waiting

namespace Content

/-- `removeUnchecked`. -/
def drop (c : Content) (it : Uint256) : Content :=
  match c.waiting it with
  | none => c
  | some p =>
    { waiting := Function.update c.waiting it none
      next := fun o => if o ∈ p.prevouts then none else c.next o
      address := fun k => if k ∈ (c.addressKeys p.1.hash).getD [] then none else c.address k
      addressKeys := Function.update c.addressKeys p.1.hash none
      spent := fun k => if k ∈ (c.spentKeys p.1.hash).getD [] then none else c.spent k
      spentKeys := Function.update c.spentKeys p.1.hash none }

/-- `addUnchecked`, and the two calls after it. -/
def add (GetOutputFor : COutPoint → CTxOut) (c : Content) (p : Waiting) : Content where
  waiting it := if it = p.1.hash ∧ c.waiting p.1.hash = none then some p else c.waiting it
  next o := (c.next o).or (if o ∈ p.prevouts then some p.1.hash else none)
  address := (p.deltas GetOutputFor).foldl CTxMemPool.insertPair c.address
  addressKeys it := if it = p.1.hash ∧ c.addressKeys p.1.hash =
    none then some ((p.deltas GetOutputFor).map Prod.fst) else c.addressKeys it
  spent := (p.values GetOutputFor).foldl CTxMemPool.insertPair c.spent
  spentKeys it := if it = p.1.hash ∧ c.spentKeys p.1.hash =
    none then some ((p.values GetOutputFor).map Prod.fst) else c.spentKeys it

end Content

/-! ## What the pool's operations do to it -/

namespace CTxMemPool

variable {GetOutputFor : COutPoint → CTxOut} {s : CTxMemPool} {it : Uint256} {e entry : CTxMemPoolEntry} {A : SetEntries}

theorem content_waiting (h : s.mapTx[it]? = some e) : s.content.waiting it = some (e.tx, e.nTime) := by
  simp [content, h]

theorem content_waiting_some {p : Waiting} (h : s.content.waiting it = some p) :
    ∃ e, s.mapTx[it]? = some e ∧ (e.tx, e.nTime) = p := by
  simpa [content] using h

theorem content_foldl {α : Type} {f : CTxMemPool → α → CTxMemPool} (hf : ∀ s a, (f s a).content = s.content) (l : List α) :
    (l.foldl f s).content = s.content := by
  induction l generalizing s with
  | nil => rfl
  | cons a l ih => rw [List.foldl_cons, ih, hf]

theorem content_modify {f : CTxMemPoolEntry → CTxMemPoolEntry} (hf : ∀ e, ((f e).tx, (f e).nTime) = (e.tx, e.nTime)) :
    (s.modify it f).content = s.content := by
  unfold content modify
  congr 1
  funext a
  rw [lookup_modify]
  by_cases ha : a = it
  · rw [if_pos ha, ha, Option.map_map]
    congr 1
    funext e
    exact hf e
  · rw [if_neg ha]

theorem content_updateState {size count : Int} {fee : CAmount} :
    (s.modify it (·.updateState size fee count)).content = s.content := by
  apply content_modify
  intro e
  unfold CTxMemPoolEntry.updateState
  split <;> rfl

theorem content_updateChild (entry child : Uint256) (add : Bool) : (s.updateChild entry child add).content = s.content := rfl

theorem content_updateParent (entry parent : Uint256) (add : Bool) : (s.updateParent entry parent add).content = s.content := rfl

theorem content_updateAncestorsOf (add : Bool) : (s.updateAncestorsOf add it A).content = s.content := by
  unfold updateAncestorsOf
  cases s.mapTx[it]? with
  | none => rfl
  | some e =>
    dsimp only
    rw [content_foldl fun s a => content_updateState, content_foldl fun s piter => content_updateChild piter it add]

theorem content_updateChildrenForRemoval (it : Uint256) : (s.updateChildrenForRemoval it).content = s.content :=
  content_foldl (fun _ updateIt => content_updateParent updateIt it false) _

theorem content_updateForRemoveFromMempool (stage : SetEntries) : (s.updateForRemoveFromMempool stage).content = s.content := by
  unfold updateForRemoveFromMempool
  dsimp only
  rw [content_foldl fun s it => content_updateChildrenForRemoval it, content_foldl fun s it => content_updateAncestorsOf false]

theorem lookup_foldl_spent (vin : List CTxIn) (m : Map COutPoint Uint256) (o : COutPoint) :
    (vin.foldl (fun m (txin : CTxIn) => m.erase txin.prevout) m)[o]? = if o ∈ vin.map CTxIn.prevout then none else m[o]? := by
  rw [← lookup_foldl_erase, List.foldl_map]

theorem lookup_foldl_spender (vin : List CTxIn) (m : Map COutPoint Uint256) (o : COutPoint) (hash : Uint256) :
    (vin.foldl (fun m (txin : CTxIn) => m.insertIfNew txin.prevout hash) m)[o]? =
      (m[o]?).or (if o ∈ vin.map CTxIn.prevout then some hash else none) := by
  rw [← lookup_foldl_insertIfNew, List.foldl_map]

theorem content_removeAddressIndex (txhash : Uint256) : (s.removeAddressIndex txhash).content =
    { s.content with
      address := fun k => if k ∈ (s.content.addressKeys txhash).getD [] then none else s.content.address k
      addressKeys := Function.update s.content.addressKeys txhash none } := by
  unfold removeAddressIndex
  cases h : s.mapAddressInserted[txhash]? with
  | none =>
    have hkeys : Function.update (fun it => s.mapAddressInserted[it]?) txhash none = fun it => s.mapAddressInserted[it]? :=
      Function.update_eq_self_iff.2 h.symm
    simp [content, hkeys, h]
  | some keys =>
    simp [content, foldl_erasePair, lookup_erase, funext_iff, Function.update_apply, h]

theorem content_removeSpentIndex (txhash : Uint256) : (s.removeSpentIndex txhash).content =
    { s.content with
      spent := fun k => if k ∈ (s.content.spentKeys txhash).getD [] then none else s.content.spent k
      spentKeys := Function.update s.content.spentKeys txhash none } := by
  unfold removeSpentIndex
  cases h : s.mapSpentInserted[txhash]? with
  | none =>
    have hkeys : Function.update (fun it => s.mapSpentInserted[it]?) txhash none = fun it => s.mapSpentInserted[it]? :=
      Function.update_eq_self_iff.2 h.symm
    simp [content, hkeys, h]
  | some keys =>
    simp [content, foldl_erasePair, lookup_erase, funext_iff, Function.update_apply, h]

theorem content_removeUnchecked (it : Uint256) : (s.removeUnchecked it).content = s.content.drop it := by
  unfold removeUnchecked Content.drop
  cases h : s.mapTx[it]? with
  | none => simp [content, h]
  | some e =>
    rw [content_waiting h]
    dsimp only
    rw [content_removeSpentIndex, content_removeAddressIndex]
    simp only [content, lookup_foldl_spent, lookup_erase, Waiting.prevouts, Content.mk.injEq, and_true, true_and]
    refine ⟨?_, rfl, rfl, rfl⟩
    funext a
    rw [Function.update_apply]
    split <;> rfl

theorem content_removeStaged (stage : SetEntries) :
    (s.removeStaged stage).content = (stage.sort (· ≤ ·)).foldl Content.drop s.content := by
  have hfold (l : List Uint256) (s : CTxMemPool) : (l.foldl removeUnchecked s).content = l.foldl Content.drop s.content := by
    induction l generalizing s with
    | nil => rfl
    | cons it l ih => rw [List.foldl_cons, List.foldl_cons, ih, content_removeUnchecked]
  rw [removeStaged, hfold, content_updateForRemoveFromMempool]

theorem content_addUnchecked (s : CTxMemPool) (entry : CTxMemPoolEntry) (A : SetEntries) : (s.addUnchecked entry A).content =
    { s.content with
      waiting := fun it => if it = entry.tx.hash ∧
        s.content.waiting entry.tx.hash = none then some (entry.tx, entry.nTime) else s.content.waiting it
      next := fun o => (s.content.next o).or (if o ∈ entry.tx.vin.map CTxIn.prevout then some entry.tx.hash else none) } := by
  unfold addUnchecked
  dsimp only
  rw [content_updateAncestorsOf, content_foldl fun s pit => content_updateParent entry.tx.hash pit true]
  simp only [content, lookup_foldl_spender, lookup_insertIfNew, Content.mk.injEq, and_self, and_true, Option.map_eq_none_iff]
  funext a
  by_cases hnew : a = entry.tx.hash ∧ s.mapTx[entry.tx.hash]? = none
  · rw [if_pos hnew, if_pos hnew]
    split <;> rfl
  · rw [if_neg hnew, if_neg hnew]

theorem content_acceptance : (((s.addUnchecked entry A).addAddressIndex GetOutputFor entry).addSpentIndex GetOutputFor entry).content =
    s.content.add GetOutputFor (entry.tx, entry.nTime) := by
  have h := content_addUnchecked s entry A
  generalize s.addUnchecked entry A = t at h ⊢
  unfold addSpentIndex addAddressIndex
  simp only [content, Content.mk.injEq] at h
  obtain ⟨hwaiting, hnext, haddress, haddressKeys, hspent, hspentKeys⟩ := h
  have haddressKey := congrFun haddressKeys
  have hspentKey := congrFun hspentKeys
  simp only [content, Content.add, Content.mk.injEq, lookup_insertIfNew, haddressKey, hspentKey, hwaiting, hnext,
    haddress, hspent]
  refine ⟨trivial, rfl, rfl, rfl, rfl, rfl⟩

end CTxMemPool

/-! ## The rows of a transaction -/

theorem nodup_keys_of_place {α κ ν : Type} {row : α → Nat → Option (κ × ν)} {place : κ → Nat}
    (hplace : ∀ a j kv, row a j = some kv → place kv.1 = j) (l : List α) (n : Nat) :
    (((l.zipIdx n).filterMap fun (a, j) => row a j).map Prod.fst).Nodup ∧
      ∀ k ∈ ((l.zipIdx n).filterMap fun (a, j) => row a j).map Prod.fst, n ≤ place k := by
  induction l generalizing n with
  | nil => simp
  | cons a l ih =>
    obtain ⟨hnodup, hle⟩ := ih (n + 1)
    rw [List.zipIdx_cons, List.filterMap_cons]
    dsimp only
    cases hrow : row a n with
    | none => exact ⟨hnodup, fun k hk => Nat.le_of_succ_le (hle k hk)⟩
    | some kv =>
      have hkv := hplace a n kv hrow
      refine ⟨List.nodup_cons.2 ⟨fun hmem => ?_, hnodup⟩, fun k hk => ?_⟩
      · have hlt := hle _ hmem
        omega
      · rcases List.mem_cons.1 hk with rfl | hk
        · exact hkv.ge
        · exact Nat.le_of_succ_le (hle k hk)

namespace Waiting

variable {GetOutputFor : COutPoint → CTxOut} {p : Waiting} {kd : CMempoolAddressDeltaKey × CMempoolAddressDelta}

/-- The rows of `mapNextTx`. -/
def spenders (p : Waiting) : List (COutPoint × Uint256) := p.prevouts.map fun o => (o, p.1.hash)

@[simp] theorem keys_spenders : p.spenders.map Prod.fst = p.prevouts := by
  simp [spenders, Function.comp_def]

@[simp] theorem keys_values : (p.values GetOutputFor).map Prod.fst = p.prevouts := by
  have hprevouts : p.1.vin.zipIdx.map (CTxIn.prevout ∘ Prod.fst) = p.prevouts := by
    rw [← List.map_map, List.zipIdx_map_fst, prevouts]
  rw [← hprevouts, values, CTxMemPool.spentValues, List.map_map]
  rfl

theorem inputDelta_key {e : CTxMemPoolEntry} {input : CTxIn} {j : Nat}
    (h : CTxMemPool.inputDelta GetOutputFor e input j = some kd) :
    kd.1.txhash = e.tx.hash ∧ kd.1.index = j ∧ kd.1.spending = 1 := by
  obtain ⟨address, -, rfl⟩ := Option.map_eq_some_iff.1 h
  exact ⟨rfl, rfl, rfl⟩

theorem outputDelta_key {e : CTxMemPoolEntry} {out : CTxOut} {k : Nat} (h : CTxMemPool.outputDelta e out k = some kd) :
    kd.1.txhash = e.tx.hash ∧ kd.1.index = k ∧ kd.1.spending = 0 := by
  obtain ⟨address, -, rfl⟩ := Option.map_eq_some_iff.1 h
  exact ⟨rfl, rfl, rfl⟩

theorem txhash_of_mem_deltas (h : kd ∈ p.deltas GetOutputFor) : kd.1.txhash = p.1.hash := by
  rcases List.mem_append.1 h with h | h
  · obtain ⟨_, -, hrow⟩ := List.mem_filterMap.1 h
    exact (inputDelta_key hrow).1
  · obtain ⟨_, -, hrow⟩ := List.mem_filterMap.1 h
    exact (outputDelta_key hrow).1

theorem nodup_keys_deltas : ((p.deltas GetOutputFor).map Prod.fst).Nodup := by
  unfold deltas CTxMemPool.addressDeltas
  rw [List.map_append, List.nodup_append]
  refine ⟨?_, ?_, ?_⟩
  · have hplace (input : CTxIn) (j : Nat) (kd : CMempoolAddressDeltaKey × CMempoolAddressDelta)
        (h : CTxMemPool.inputDelta GetOutputFor (.new p.1 0 p.2 0) input j = some kd) : kd.1.index = j := (inputDelta_key h).2.1
    exact (nodup_keys_of_place hplace p.1.vin 0).1
  · have hplace (out : CTxOut) (k : Nat) (kd : CMempoolAddressDeltaKey × CMempoolAddressDelta)
        (h : CTxMemPool.outputDelta (.new p.1 0 p.2 0) out k = some kd) : kd.1.index = k := (outputDelta_key h).2.1
    exact (nodup_keys_of_place hplace p.1.vout 0).1
  · intro k hk k' hk'
    obtain ⟨kd, hkd, rfl⟩ := List.mem_map.1 hk
    obtain ⟨kd', hkd', rfl⟩ := List.mem_map.1 hk'
    obtain ⟨_, -, hrow⟩ := List.mem_filterMap.1 hkd
    obtain ⟨_, -, hrow'⟩ := List.mem_filterMap.1 hkd'
    have hspending := (inputDelta_key hrow).2.2
    have hspending' := (outputDelta_key hrow').2.2
    intro heq
    rw [heq, hspending'] at hspending
    cases hspending

end Waiting

/-! ## The invariant -/

namespace Content

variable (GetOutputFor : COutPoint → CTxOut)

structure Inv (c : Content) : Prop where
  keyed : ∀ it p, c.waiting it = some p → p.1.hash = it
  checked : ∀ it p, c.waiting it = some p → checkTransaction p.1 = true
  next : Shadows Waiting.spenders c.waiting c.next
  address : Shadows (Waiting.deltas GetOutputFor) c.waiting c.address
  addressKeys : ∀ it, c.addressKeys it = (c.waiting it).map fun p => (p.deltas GetOutputFor).map Prod.fst
  spent : Shadows (Waiting.values GetOutputFor) c.waiting c.spent
  spentKeys : ∀ it, c.spentKeys it = (c.waiting it).map fun p => (p.values GetOutputFor).map Prod.fst

variable {GetOutputFor} {c : Content} {p : Waiting} {it : Uint256}

theorem Inv.apart_spenders (h : c.Inv GetOutputFor) : KeysApart Waiting.spenders c.waiting := by
  apply h.next.keysApart id
  intro it p o hash hp hrow
  obtain ⟨o, -, ho⟩ := List.mem_map.1 hrow
  cases ho
  exact h.keyed it p hp

theorem Inv.apart_values (h : c.Inv GetOutputFor) : KeysApart (Waiting.values GetOutputFor) c.waiting := by
  have hapart := h.apart_spenders
  simpa only [KeysApart, Waiting.keys_spenders, Waiting.keys_values] using hapart

theorem Inv.apart_deltas (h : c.Inv GetOutputFor) : KeysApart (Waiting.deltas GetOutputFor) c.waiting := by
  intro it it' p q k hp hq hkp hkq
  obtain ⟨kd, hkd, rfl⟩ := List.mem_map.1 hkp
  obtain ⟨kd', hkd', heq⟩ := List.mem_map.1 hkq
  rw [← h.keyed it p hp, ← h.keyed it' q hq, ← Waiting.txhash_of_mem_deltas hkd, ← Waiting.txhash_of_mem_deltas hkd', heq]

theorem waiting_drop (c : Content) (it : Uint256) : (c.drop it).waiting = Function.update c.waiting it none := by
  unfold drop
  cases h : c.waiting it with
  | none => exact (Function.update_eq_self_iff.2 h.symm).symm
  | some p => rfl

theorem waiting_drops (l : List Uint256) : (l.foldl drop c).waiting it = if it ∈ l then none else c.waiting it := by
  induction l generalizing c with
  | nil => simp
  | cons a l ih =>
    rw [List.foldl_cons, ih, waiting_drop, Function.update_apply]
    by_cases ha : it = a <;> simp [ha]

theorem inv_drop (h : c.Inv GetOutputFor) (it : Uint256) : (c.drop it).Inv GetOutputFor := by
  cases hp : c.waiting it with
  | none => simpa [drop, hp] using h
  | some p =>
    have hhash := h.keyed it p hp
    have hsub {it' : Uint256} {q : Waiting} (hq : (c.drop it).waiting it' = some q) : c.waiting it' = some q := by
      rw [waiting_drop, Function.update_apply] at hq
      split at hq
      · cases hq
      · exact hq
    have hdrop : c.drop it =
        { waiting := Function.update c.waiting it none
          next := fun o => if o ∈ p.prevouts then none else c.next o
          address := fun k => if k ∈ (p.deltas GetOutputFor).map Prod.fst then none else c.address k
          addressKeys := Function.update c.addressKeys it none
          spent := fun k => if k ∈ (p.values GetOutputFor).map Prod.fst then none else c.spent k
          spentKeys := Function.update c.spentKeys it none } := by
      rw [drop, hp]
      dsimp only
      rw [hhash, h.addressKeys, h.spentKeys, hp]
      rfl
    refine ⟨fun it' q hq => h.keyed it' q (hsub hq), fun it' q hq => h.checked it' q (hsub hq), ?_, ?_, ?_, ?_, ?_⟩
    · rw [hdrop]
      exact h.next.erase h.apart_spenders hp fun o => by rw [Waiting.keys_spenders]
    · rw [hdrop]
      exact h.address.erase h.apart_deltas hp fun k => rfl
    · intro it'
      rw [hdrop]
      dsimp only
      rw [Function.update_apply, Function.update_apply, h.addressKeys]
      split <;> rfl
    · rw [hdrop]
      exact h.spent.erase h.apart_values hp fun k => rfl
    · intro it'
      rw [hdrop]
      dsimp only
      rw [Function.update_apply, Function.update_apply, h.spentKeys]
      split <;> rfl

theorem inv_drops (h : c.Inv GetOutputFor) (l : List Uint256) : (l.foldl drop c).Inv GetOutputFor := by
  induction l generalizing c with
  | nil => exact h
  | cons it l ih => exact ih (inv_drop h it)

/-- What is added is new, and spends nothing that a transaction in the pool spends. -/
theorem inv_add (h : c.Inv GetOutputFor) (hnew : c.waiting p.1.hash = none) (hcheck : checkTransaction p.1 = true)
    (hfree : ∀ o ∈ p.prevouts, c.next o = none) : (c.add GetOutputFor p).Inv GetOutputFor := by
  have hwaiting : (c.add GetOutputFor p).waiting = Function.update c.waiting p.1.hash (some p) := by
    funext it
    rw [Function.update_apply]
    simp [add, hnew]
  have hsome {it : Uint256} {q : Waiting} (hq : (c.add GetOutputFor p).waiting it = some q) :
      it = p.1.hash ∧ p = q ∨ c.waiting it = some q := by
    rw [hwaiting, Function.update_apply] at hq
    split at hq
    next hit => exact .inl ⟨hit, Option.some.inj hq⟩
    · exact .inr hq
  refine ⟨fun it q hq => ?_, fun it q hq => ?_, ?_, ?_, ?_, ?_, ?_⟩
  · rcases hsome hq with ⟨rfl, rfl⟩ | hq
    · rfl
    · exact h.keyed it q hq
  · rcases hsome hq with ⟨rfl, rfl⟩ | hq
    · exact hcheck
    · exact h.checked it q hq
  · rw [hwaiting]
    refine h.next.insert hnew fun o hash => ?_
    simp only [add, Waiting.spenders, List.mem_map, Prod.mk.injEq]
    by_cases ho : o ∈ p.prevouts
    · rw [hfree o ho, if_pos ho]
      simp [ho]
    · rw [if_neg ho, Option.or_none]
      simp [ho]
  · rw [hwaiting]
    refine h.address.insert hnew fun k d => foldl_insertPair (fun kd hkd => ?_) Waiting.nodup_keys_deltas
    rw [h.address.eq_none_iff]
    intro it q hq hk
    obtain ⟨kd', hkd', heq⟩ := List.mem_map.1 hk
    have hit : it = p.1.hash := by
      rw [← h.keyed it q hq, ← Waiting.txhash_of_mem_deltas hkd', ← Waiting.txhash_of_mem_deltas hkd, heq]
    rw [hit, hnew] at hq
    cases hq
  · intro it
    rw [hwaiting, Function.update_apply]
    simp only [add, h.addressKeys, hnew, Option.map_none, and_true]
    split <;> rfl
  · rw [hwaiting]
    have hnodup : ((p.values GetOutputFor).map Prod.fst).Nodup := by
      rw [Waiting.keys_values]
      exact checkTransaction_nodup hcheck
    refine h.spent.insert hnew fun k v => foldl_insertPair (fun kv hkv => ?_) hnodup
    have ho := mem_keys (k := kv.1) (v := kv.2) hkv
    rw [Waiting.keys_values] at ho
    have hnext := h.next.eq_none_iff.1 (hfree kv.1 ho)
    rw [h.spent.eq_none_iff]
    simpa only [Waiting.keys_spenders, Waiting.keys_values] using hnext
  · intro it
    rw [hwaiting, Function.update_apply]
    simp only [add, h.spentKeys, hnew, Option.map_none, and_true]
    split <;> rfl

end Content

/-! ## The events -/

namespace CTxMemPool

variable {GetOutputFor : COutPoint → CTxOut} {s : CTxMemPool} {it : Uint256} {A : SetEntries} {tx : CTransaction}

theorem inv_removeStaged (h : s.content.Inv GetOutputFor) (stage : SetEntries) :
    (s.removeStaged stage).content.Inv GetOutputFor := by
  rw [content_removeStaged]
  exact Content.inv_drops h _

theorem inv_remove (h : s.content.Inv GetOutputFor) (tx : CTransaction) (fRecursive : Bool) :
    (s.remove tx fRecursive).content.Inv GetOutputFor := inv_removeStaged h _

theorem inv_foldl {α : Type} {f : CTxMemPool → α → CTxMemPool}
    (hf : ∀ s a, s.content.Inv GetOutputFor → (f s a).content.Inv GetOutputFor) (l : List α) (h : s.content.Inv GetOutputFor) :
    (l.foldl f s).content.Inv GetOutputFor := by
  induction l generalizing s with
  | nil => exact h
  | cons a l ih => exact ih (hf s a h)

theorem inv_removeConflicts (h : s.content.Inv GetOutputFor) (tx : CTransaction) :
    (s.removeConflicts tx).content.Inv GetOutputFor := by
  refine inv_foldl (fun s txin h => ?_) tx.vin h
  unfold removeConflict
  cases s.mapNextTx[txin.prevout]? with
  | none => exact h
  | some txConflict =>
    dsimp only
    cases s.mapTx[txConflict]? with
    | none => exact h
    | some e =>
      dsimp only
      split
      · exact inv_remove h e.tx true
      · exact h

theorem inv_removeForBlock (h : s.content.Inv GetOutputFor) (vtx : List CTransaction) :
    (s.removeForBlock vtx).content.Inv GetOutputFor :=
  inv_foldl (f := removeMined) (fun _ tx h => inv_removeConflicts (inv_remove h tx false) tx) vtx h

theorem inv_trimToSize (h : s.content.Inv GetOutputFor) (evicted : List Uint256) :
    (s.trimToSize evicted).content.Inv GetOutputFor := by
  refine inv_foldl (fun s it h => ?_) evicted h
  split
  · exact inv_removeStaged h _
  · exact h

theorem content_prioritiseTransaction (hash : Uint256) (nFeeDelta : CAmount) :
    (s.prioritiseTransaction hash nFeeDelta).content = s.content := by
  unfold prioritiseTransaction
  dsimp only
  split
  · rw [content_foldl fun s it => content_updateState]
    exact content_modify fun e => rfl
  · rfl

theorem content_updateFromBlock (included : SetEntries) (cached : CacheMap) (hash : Uint256) :
    (updateFromBlock included s cached hash).1.content = s.content := by
  unfold updateFromBlock
  split
  · have hlinks (l : List Uint256) :
        (l.foldl (fun s childIter => (s.updateChild hash childIter true).updateParent childIter hash true) s).content = s.content :=
      content_foldl (fun s childIter => content_updateParent (s := s.updateChild hash childIter true) childIter hash true) l
    dsimp only
    split
    next r hr =>
      obtain ⟨v, -, rfl⟩ := Option.map_eq_some_iff.1 hr
      rw [← hlinks]
      exact content_updateState
    · rw [← hlinks]
      exact content_modify fun e => rfl
  · rfl

theorem content_updateTransactionsFromBlock (hashes : List Uint256) :
    (s.updateTransactionsFromBlock hashes).content = s.content := by
  unfold updateTransactionsFromBlock
  generalize hashes.toFinset = included
  generalize (∅ : CacheMap) = cached
  induction hashes.reverse generalizing s cached with
  | nil => rfl
  | cons hash l ih =>
    rw [List.foldl_cons, ih]
    exact content_updateFromBlock included cached hash

theorem content_clear (h : s.content.Inv GetOutputFor) (hempty : s.mapTx.isEmpty = true) : s.clear.content = s.content := by
  have hnone (it : Uint256) : s.mapTx[it]? = none := Std.TreeMap.getElem?_of_isEmpty hempty
  have hnext (o : COutPoint) : s.mapNextTx[o]? = none := by
    refine h.next.eq_none_iff.2 fun it p hp => ?_
    simp [content, hnone] at hp
  simp [content, clear, hnone, hnext]

/-! ### Acceptance -/

theorem subset_calculateAllDescendants (hsize : 0 < s.mapTx.size) (set : SetEntries) : set ⊆ s.calculateAllDescendants set := by
  have hfold (l : List Uint256) (A : SetEntries) :
      A ⊆ l.foldl s.calculateDescendants A ∧ ∀ it ∈ l, it ∈ l.foldl s.calculateDescendants A := by
    induction l generalizing A with
    | nil => exact ⟨Finset.Subset.refl A, fun it h => (by cases h)⟩
    | cons a l ih =>
      obtain ⟨hsub, hmem⟩ := ih (s.calculateDescendants A a)
      have hA : A ⊆ s.calculateDescendants A a := subset_explore
      have ha : a ∈ s.calculateDescendants A a := by
        by_cases hin : a ∈ A
        · exact hA hin
        · unfold calculateDescendants
          rw [if_neg hin]
          exact mem_explore_start hsize
      refine ⟨hA.trans hsub, fun it hit => ?_⟩
      rcases List.mem_cons.1 hit with rfl | hit
      · exact hsub ha
      · exact hmem it hit
  intro it hit
  exact (hfold (set.sort (· ≤ ·)) ∅).2 it ((Finset.mem_sort _).2 hit)

theorem conflicts_removed (h : s.content.Inv GetOutputFor) {o : COutPoint} (ho : o ∈ tx.vin.map CTxIn.prevout) :
    (s.removeStaged (s.calculateAllDescendants (conflictsOf s tx))).content.next o = none := by
  refine (inv_removeStaged h _).next.eq_none_iff.2 fun it p hp hop => ?_
  simp only [content_removeStaged, Content.waiting_drops, Finset.mem_sort] at hp
  split at hp
  · cases hp
  next hout =>
    rw [Waiting.keys_spenders] at hop
    obtain ⟨e, he, -⟩ := content_waiting_some hp
    have hnext : s.content.next o = some it :=
      (h.next o it).2 ⟨it, p, hp, List.mem_map.2 ⟨o, hop, by rw [h.keyed it p hp]⟩⟩
    obtain ⟨txin, htxin, rfl⟩ := List.mem_map.1 ho
    have hconflict : it ∈ conflictsOf s tx := mem_conflictsOf.2 ⟨txin, htxin, hnext⟩
    have hsize : 0 < s.mapTx.size := by
      rw [← card_keys_toFinset, Finset.card_pos]
      exact ⟨it, List.mem_toFinset.2 (Std.TreeMap.mem_keys.2 (Std.TreeMap.mem_iff_isSome_getElem?.2 (by rw [he]; rfl)))⟩
    exact hout (subset_calculateAllDescendants hsize _ hconflict)

theorem inv_acceptToMemoryPool (h : s.content.Inv GetOutputFor) (entry : CTxMemPoolEntry) :
    (acceptToMemoryPool GetOutputFor s entry).content.Inv GetOutputFor := by
  unfold acceptToMemoryPool
  dsimp only
  split
  next hok =>
    obtain ⟨hcheck, -, hnew, -⟩ := accepts_iff.1 hok
    rw [content_acceptance]
    refine Content.inv_add (inv_removeStaged h _) ?_ hcheck fun o ho => conflicts_removed h ho
    rw [content_removeStaged, Content.waiting_drops]
    split
    · rfl
    · simp [content, hnew]
  · exact h

end CTxMemPool

open CTxMemPool

variable {GetOutputFor : COutPoint → CTxOut} {s : CTxMemPool} {e : MempoolEvent}

/-- Only `clear` empties a pool without its indexes. -/
def ClearsEmpty (s : CTxMemPool) : MempoolEvent → Prop
  | .clear => s.mapTx.isEmpty = true
  | _ => True

theorem inv_disconnectBlock (h : s.content.Inv GetOutputFor) (vtx : List Resurrected) :
    (disconnectBlock GetOutputFor s vtx).content.Inv GetOutputFor := by
  have hfold (acc : CTxMemPool × List Uint256) (h : acc.1.content.Inv GetOutputFor) :
      (vtx.foldl (resurrect GetOutputFor) acc).1.content.Inv GetOutputFor := by
    induction vtx generalizing acc with
    | nil => exact h
    | cons r vtx ih =>
      refine ih _ ?_
      unfold resurrect
      split
      · exact inv_remove h r.tx true
      · dsimp only
        split
        · exact inv_acceptToMemoryPool h _
        · exact inv_remove h r.tx true
  unfold disconnectBlock
  rw [content_updateTransactionsFromBlock]
  exact hfold (s, []) h

theorem event_inv (h : s.content.Inv GetOutputFor) (hok : ClearsEmpty s e) :
    (mempoolStep GetOutputFor s e).content.Inv GetOutputFor := by
  cases e with
  | accept tx nFee nTime nTxSize => exact inv_acceptToMemoryPool h _
  | remove tx fRecursive => exact inv_remove h tx fRecursive
  | removeConflicts tx => exact inv_removeConflicts h tx
  | removeForBlock vtx => exact inv_removeForBlock h vtx
  | removeForReorg txs => exact inv_foldl (fun _ tx h => inv_remove h tx true) txs h
  | expire time => exact inv_removeStaged h _
  | trimToSize evicted => exact inv_trimToSize h evicted
  | prioritise hash nFeeDelta =>
    rw [mempoolStep, content_prioritiseTransaction]
    exact h
  | disconnectBlock vtx => exact inv_disconnectBlock h vtx
  | clear =>
    rw [mempoolStep, content_clear h hok]
    exact h

theorem inv_empty : CTxMemPool.empty.content.Inv GetOutputFor := by
  constructor <;> simp [Shadows, content, CTxMemPool.empty]

theorem indexExact_of_inv (h : s.content.Inv GetOutputFor) : IndexExact GetOutputFor s := by
  have hentries {rows : Waiting → Prop} : (∃ it p, s.content.waiting it = some p ∧ rows p) ↔
      ∃ (it : Uint256) (e : CTxMemPoolEntry), s.mapTx[it]? = some e ∧ rows (e.tx, e.nTime) := by
    constructor
    · rintro ⟨it, p, hp, hrow⟩
      obtain ⟨e, he, rfl⟩ := content_waiting_some hp
      exact ⟨it, e, he, hrow⟩
    · rintro ⟨it, e, he, hrow⟩
      exact ⟨it, _, content_waiting he, hrow⟩
  exact ⟨fun it e _ => Waiting.nodup_keys_deltas (p := (e.tx, e.nTime)), fun k d => (h.address k d).trans hentries,
    fun k v => (h.spent k v).trans hentries⟩

theorem isEmpty_of_exact_clear (h : s.content.Inv GetOutputFor) (hexact : IndexExact GetOutputFor s.clear) :
    s.mapTx.isEmpty = true := by
  by_contra hnot
  obtain ⟨it, hit⟩ := Std.TreeMap.isEmpty_eq_false_iff_exists_mem.1 (Bool.not_eq_true _ ▸ hnot)
  obtain ⟨e, he⟩ := Option.isSome_iff_exists.1 (Std.TreeMap.mem_iff_isSome_getElem?.1 hit)
  have hwaiting := content_waiting he
  obtain ⟨txin, htxin⟩ := List.exists_mem_of_ne_nil _ (checkTransaction_vin (h.checked it _ hwaiting))
  have ho : txin.prevout ∈ (Waiting.values GetOutputFor (e.tx, e.nTime)).map Prod.fst := by
    rw [Waiting.keys_values]
    exact List.mem_map_of_mem htxin
  obtain ⟨⟨o, v⟩, hv, -⟩ := List.mem_map.1 ho
  have hspent : s.clear.mapSpent o = some v := (h.spent o v).2 ⟨it, _, hwaiting, hv⟩
  obtain ⟨it', e', he', -⟩ := (hexact.spent o v).1 hspent
  simp [clear] at he'

/-- In every run from the empty pool, the indexes are exact after each event just when no
    event clears a pool that has transactions. -/
theorem indexes_exact_iff (GetOutputFor : COutPoint → CTxOut) (es : List MempoolEvent) :
    Along (fun s e => some (mempoolStep GetOutputFor s e)) (fun _ _ s' => IndexExact GetOutputFor s') .empty es ↔
      Meets (fun s e => some (mempoolStep GetOutputFor s e)) ClearsEmpty .empty es := by
  refine along_iff_meets_total (fun s e => rfl) (fun s => s.content.Inv GetOutputFor) ?_ ?_ inv_empty
  · intro s e h hok
    have h' := event_inv h hok
    exact ⟨h', indexExact_of_inv h'⟩
  · intro s e h hexact
    cases e with
    | clear => exact isEmpty_of_exact_clear h hexact
    | _ => trivial

def indexSample : CTransaction := ⟨⟨[⟨⟨7, 0⟩, [], 0⟩], [⟨5, []⟩], 1⟩, 1⟩

/-- The pool has nothing any more, and `mapSpent` has the output. -/
theorem cleared_index_stays :
    ¬ IndexExact (fun _ => ⟨6, []⟩) ([.accept indexSample 1 0 100, .clear].foldl (mempoolStep fun _ => ⟨6, []⟩) .empty) := by
  intro hexact
  have hspent : ([.accept indexSample 1 0 100, .clear].foldl (mempoolStep fun _ => ⟨6, []⟩) .empty).mapSpent ⟨7, 0⟩ =
      some ⟨1, 0, -1, 6, 0, []⟩ := by
    decide +kernel
  obtain ⟨it, e, he, -⟩ := (hexact.spent _ _).1 hspent
  simp [mempoolStep, clear] at he

end Zumy.Mempool
