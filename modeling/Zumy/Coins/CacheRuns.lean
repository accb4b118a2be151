/-
  Zumy.Coins.CacheRuns — sequences of operations on a stack of coin caches, next to one flat
  map that takes the same modifications.

  (1) `step_coherent`: an operation keeps the stack's contents the flat map, and its fresh
      entries where the view below has no unspent output, if `ModifyNewCoins` is called only
      where that view has none (and a layer is modified only where none above it has an entry).
  (2) `reads_iff_new_below`: of all runs, just those read as the flat map at every step.
  (3) `spent_coin_is_back`: an output that was spent is unspent again.
-/
import Zumy.Coins.Cache
import Zumy.Lib.Run

namespace Zumy.Coins

open Zumy.Lib

variable {db db' : CCoinsViewDB} {caches below below' : List CCoinsViewCache} {c : CCoinsViewCache} {txid k : Uint256}

/-! ## Any layer -/

def View.contents (s : View) : Uint256 → Option CCoins := Coins.contents s.db s.caches

def View.Coherent (s : View) : Prop := Coins.Coherent s.db s.caches

variable {s : View}

theorem coherent_cons (h : Coherent db (c :: below)) (hbelow : Coherent db' below')
    (hsame : contents db' below' = contents db below) :
    Coherent db' (c :: below') := by
  refine ⟨hbelow, fun k it hit => ?_⟩
  rw [hsame]
  exact h.2 k it hit

theorem contents_cons_congr (hsame : contents db' below' = contents db below) :
    contents db' (c :: below') = contents db (c :: below) := by
  funext k
  simp only [contents, hsame]

theorem atLayer_keep {op : View → View} (hop : ∀ s : View, s.Coherent → (op s).contents = s.contents ∧ (op s).Coherent)
    (i : Nat) (s : View) (h : s.Coherent) : (View.atLayer i op s).contents = s.contents ∧ (View.atLayer i op s).Coherent := by
  induction i generalizing s with
  | zero => exact hop s h
  | succ i ih =>
    obtain ⟨caches, db⟩ := s
    cases caches with
    | nil => exact ⟨rfl, h⟩
    | cons c below =>
      obtain ⟨hsame, hcoherent⟩ := ih ⟨below, db⟩ h.1
      exact ⟨contents_cons_congr hsame, coherent_cons h hcoherent hsame⟩

theorem atLayer_modify {op : View → View} {v : Option CCoins} {i : Nat} (h : Coherent db caches) (hi : i < caches.length)
    (hmasked : ∀ c ∈ caches.take i, c.cacheCoins[txid]? = none)
    (hop : ∃ caches', op ⟨caches.drop i, db⟩ = ⟨caches', db⟩ ∧
      contents db caches' = Function.update (contents db (caches.drop i)) txid v ∧ Coherent db caches') :
    ∃ caches', View.atLayer i op ⟨caches, db⟩ = ⟨caches', db⟩ ∧
      contents db caches' = Function.update (contents db caches) txid v ∧
      Coherent db caches' := by
  induction i generalizing caches with
  | zero => exact hop
  | succ i ih =>
    cases caches with
    | nil => cases hi
    | cons c below =>
      simp only [List.take_succ_cons, List.mem_cons, forall_eq_or_imp, List.drop_succ_cons] at hmasked hop
      obtain ⟨below', heq, hcontents, hcoherent⟩ := ih h.1 (Nat.lt_of_succ_lt_succ hi) hmasked.2 hop
      refine ⟨c :: below', by simp only [View.atLayer, heq], ?_, hcoherent, ?_⟩
      · funext k
        simp only [contents, hcontents, Function.update_apply]
        by_cases hk : k = txid
        · subst hk
          simp [hmasked.1]
        · simp [hk]
      · intro k it hit
        have hk : k ≠ txid := by
          intro hk
          rw [hk, hmasked.1] at hit
          cases hit
        rw [hcontents, Function.update_of_ne hk]
        exact h.2 k it hit

theorem contents_drop (i : Nat) (hmasked : ∀ c ∈ caches.take i, c.cacheCoins[txid]? = none) :
    contents db (caches.drop i) txid = contents db caches txid := by
  induction i generalizing caches with
  | zero => rfl
  | succ i ih =>
    cases caches with
    | nil => rfl
    | cons c below =>
      simp only [List.take_succ_cons, List.mem_cons, forall_eq_or_imp] at hmasked
      rw [List.drop_succ_cons, ih hmasked.2, contents_of_none hmasked.1]

theorem Layered.drop {Q : Option CCoins → CCoinsCacheEntry → Prop} (h : Layered Q db caches) (i : Nat) :
    Layered Q db (caches.drop i) := by
  induction i generalizing caches with
  | zero => exact h
  | succ i ih =>
    cases caches with
    | nil => trivial
    | cons c below => exact ih h.1

/-! ## Reads of the top layer -/

theorem isAvailable_of_pruned {c : CCoins} (h : c.isPruned = true) (nPos : Nat) : c.isAvailable nPos = false := by
  unfold CCoins.isAvailable
  cases hout : c.vout[nPos]? with
  | none => rfl
  | some out => simpa using List.all_eq_true.1 h out (List.mem_of_getElem? hout)

def flatHaveInputs (m : Uint256 → Option CCoins) (tx : CTransaction) : Bool :=
  tx.isCoinBase || tx.vin.all fun txin => (m txin.prevout.hash).any (·.isAvailable txin.prevout.n)

theorem getCoins_answer (s : View) (txid : Uint256) :
    (s.getCoins txid).1.bind CCoins.unspent = s.contents txid := fetchCoins_answer txid

theorem getCoins_spec (h : s.Coherent) (txid : Uint256) :
    (s.getCoins txid).2.contents = s.contents ∧ (s.getCoins txid).2.Coherent :=
  fetchCoins_spec h txid

theorem any_isAvailable (answer : Option CCoins) (nPos : Nat) :
    answer.any (·.isAvailable nPos) = (answer.bind CCoins.unspent).any (·.isAvailable nPos) := by
  cases answer with
  | none => rfl
  | some c =>
    cases h : c.isPruned with
    | true => simp [CCoins.unspent_of_pruned h, isAvailable_of_pruned h]
    | false => simp [CCoins.unspent_of_not_pruned h]

theorem haveInputs_spec (h : s.Coherent) (tx : CTransaction) : (s.haveInputs tx).1 = flatHaveInputs s.contents tx := by
  unfold View.haveInputs flatHaveInputs
  cases tx.isCoinBase with
  | true => rfl
  | false =>
    simp only [Bool.false_eq_true, if_false, Bool.false_or]
    -- what is read on the way changes nothing, so the loop asks the same contents at every input
    have hloop (vin : List CTxIn) (b : Bool) (t : View) (ht : t.contents = s.contents) (hc : t.Coherent) :
        (vin.foldl (fun acc txin =>
          if acc.1 then ((acc.2.getCoins txin.prevout.hash).1.any (·.isAvailable txin.prevout.n), (acc.2.getCoins txin.prevout.hash).2)
          else acc) (b, t)).1 = (b && vin.all fun txin => (s.contents txin.prevout.hash).any (·.isAvailable txin.prevout.n)) := by
      induction vin generalizing b t with
      | nil => simp
      | cons txin vin ih =>
        rw [List.foldl_cons]
        cases b with
        | false =>
          simp only [Bool.false_eq_true, if_false, Bool.false_and]
          rw [ih false t ht hc, Bool.false_and]
        | true =>
          obtain ⟨hsame, hcoherent⟩ := getCoins_spec hc txin.prevout.hash
          simp only [if_true]
          rw [ih _ _ (hsame.trans ht) hcoherent, any_isAvailable, getCoins_answer, ht, Bool.true_and, List.all_cons]
    rw [hloop tx.vin true s rfl h, Bool.true_and]

/-! ## Flushing all layers -/

def flushLayers : Nat → View → View
  | 0, s => s
  | n + 1, s =>
    match s.flush.caches with
    | [] => s.flush
    | c :: below => { flushLayers n ⟨below, s.flush.db⟩ with caches := c :: (flushLayers n ⟨below, s.flush.db⟩).caches }

def View.flushAll (s : View) : View := flushLayers s.caches.length s

theorem flush_caches (c : CCoinsViewCache) (below : List CCoinsViewCache) (db : CCoinsViewDB) :
    ∃ below', (View.flush ⟨c :: below, db⟩).caches = { c with cacheCoins := ∅ } :: below' ∧ below'.length = below.length := by
  cases below with
  | nil => exact ⟨[], rfl, rfl⟩
  | cons d below => exact ⟨_, rfl, rfl⟩

theorem flushLayers_spec (n : Nat) (s : View) (hn : s.caches.length = n) (h : s.Coherent) :
    ∀ txid : Uint256, (flushLayers n s).db.coins[txid]? = s.contents txid := by
  induction n generalizing s with
  | zero =>
    obtain ⟨caches, db⟩ := s
    cases List.eq_nil_of_length_eq_zero hn
    intro txid
    rfl
  | succ n ih =>
    obtain ⟨caches, db⟩ := s
    cases caches with
    | nil => cases hn
    | cons c below =>
      obtain ⟨below', hflush, hlength⟩ := flush_caches c below db
      obtain ⟨hsame, hcoherent⟩ := flush_spec h
      rw [hflush] at hsame hcoherent
      rw [contents_emptied] at hsame
      intro txid
      simp only [flushLayers, hflush]
      rw [ih ⟨below', _⟩ (hlength.trans (Nat.succ.inj hn)) hcoherent.1 txid]
      exact congrFun hsame txid

theorem flushAll_spec (h : s.Coherent) (txid : Uint256) :
    s.flushAll.db.coins[txid]? = s.contents txid := flushLayers_spec _ s rfl h txid

/-! ## Sequences of operations -/

inductive Op
  | modify (layer : Nat) (txid : Uint256) (f : Modification)
  | modifyNew (layer : Nat) (txid : Uint256) (f : CCoins → CCoins)
  | read (layer : Nat) (txid : Uint256)
  | uncache (layer : Nat) (txid : Uint256)
  | flush (layer : Nat)

namespace Op

def layer : Op → Nat
  | modify i _ _ | modifyNew i _ _ | read i _ | uncache i _ | flush i => i

def onTop : Op → View → View
  | modify _ txid f => View.modifyCoins txid f.apply
  | modifyNew _ txid f => View.modifyNewCoins txid f
  | read _ txid => fun s => (s.getCoins txid).2
  | uncache _ txid => View.uncache txid
  | flush _ => View.flush

def onFlat (m : Uint256 → Option CCoins) : Op → Uint256 → Option CCoins
  | modify _ txid f => flatModify m txid f.apply
  | modifyNew _ txid f => flatNew m txid f
  | read _ _ | uncache _ _ | flush _ => m

end Op

/-- A stack and the flat map next to it; there is no step on a layer that is not there. -/
def step (s : View × (Uint256 → Option CCoins)) (op : Op) : Option (View × (Uint256 → Option CCoins)) :=
  if op.layer < s.1.caches.length then some (View.atLayer op.layer op.onTop s.1, op.onFlat s.2) else none

def start (n : Nat) (db : CCoinsViewDB) : View × (Uint256 → Option CCoins) :=
  (⟨List.replicate n .new, db⟩, fun txid => db.coins[txid]?)

/-- The stack reads as the flat map, all its layers flush into it, and a fresh entry's parent
    has no unspent output. -/
structure Reads (s : View) (m : Uint256 → Option CCoins) : Prop where
  fresh : Layered FreshSound s.db s.caches
  coins : ∀ txid, (s.getCoins txid).1.bind CCoins.unspent = m txid
  inputs : ∀ tx, (s.haveInputs tx).1 = flatHaveInputs m tx
  flushed : ∀ txid : Uint256, s.flushAll.db.coins[txid]? = m txid

def Unmasked (s : View × (Uint256 → Option CCoins)) : Op → Prop
  | .modify i txid _ | .modifyNew i txid _ => ∀ c ∈ s.1.caches.take i, c.cacheCoins[txid]? = none
  | _ => True

/-- New coins are made where the view below the layer has no unspent output of the id. -/
def NewBelow (s : View × (Uint256 → Option CCoins)) : Op → Prop
  | .modifyNew i txid _ => ∀ c below, s.1.caches.drop i = c :: below → contents s.1.db below txid = none
  | _ => True

def NewInView (s : View × (Uint256 → Option CCoins)) : Op → Prop
  | .modifyNew i txid _ => contents s.1.db (s.1.caches.drop i) txid = none
  | _ => True

theorem reads_of_coherent {m : Uint256 → Option CCoins} (h : s.Coherent) (hm : s.contents = m) : Reads s m := by
  subst hm
  exact ⟨Coherent.fresh h, getCoins_answer s, haveInputs_spec h, flushAll_spec h⟩

theorem start_coherent (n : Nat) (db : CCoinsViewDB) : (start n db).1.Coherent ∧ (start n db).1.contents = (start n db).2 := by
  induction n with
  | zero => exact ⟨trivial, rfl⟩
  | succ n ih =>
    refine ⟨⟨ih.1, fun txid it hit => ?_⟩, ?_⟩
    · simp [CCoinsViewCache.new] at hit
    · funext txid
      have hnone : CCoinsViewCache.new.cacheCoins[txid]? = none := by simp [CCoinsViewCache.new]
      exact (contents_of_none hnone).trans (congrFun ih.2 txid)

theorem step_coherent {s s' : View × (Uint256 → Option CCoins)} {op : Op} (h : s.1.Coherent) (hm : s.1.contents = s.2)
    (hmasked : Unmasked s op) (hnew : NewBelow s op) (hstep : step s op = some s') : s'.1.Coherent ∧ s'.1.contents = s'.2 := by
  obtain ⟨⟨caches, db⟩, m⟩ := s
  change contents db caches = m at hm
  subst hm
  unfold step at hstep
  split at hstep
  · next hi =>
    cases hstep
    have hdrop : ∃ c below, caches.drop op.layer = c :: below := by
      rw [List.drop_eq_getElem_cons hi]
      exact ⟨_, _, rfl⟩
    obtain ⟨c, below, hdrop⟩ := hdrop
    have hlayer : Coherent db (c :: below) := hdrop ▸ Layered.drop h op.layer
    cases op with
    | modify i txid f =>
      obtain ⟨c', below', heq, -, hcontents, hcoherent⟩ := modifyCoins_spec hlayer txid f
      have htop : contents db (c :: below) txid = contents db caches txid := hdrop ▸ contents_drop i hmasked
      obtain ⟨caches', hat, hsame, hc⟩ : ∃ caches', View.atLayer i (View.modifyCoins txid f.apply) ⟨caches, db⟩ = ⟨caches', db⟩ ∧
          contents db caches' = flatModify (contents db caches) txid f.apply ∧ Coherent db caches' := by
        apply atLayer_modify h hi hmasked
        rw [hdrop, ← htop]
        exact ⟨_, heq, hcontents, hcoherent⟩
      rw [Op.layer, Op.onTop, hat]
      exact ⟨hc, hsame⟩
    | modifyNew i txid f =>
      obtain ⟨c', heq, hcontents, hcoherent⟩ := modifyNewCoins_spec hlayer f (hnew c below hdrop)
      obtain ⟨caches', hat, hsame, hc⟩ : ∃ caches', View.atLayer i (View.modifyNewCoins txid f) ⟨caches, db⟩ = ⟨caches', db⟩ ∧
          contents db caches' = flatNew (contents db caches) txid f ∧ Coherent db caches' := by
        apply atLayer_modify h hi hmasked
        rw [hdrop]
        exact ⟨_, heq, hcontents, hcoherent⟩
      rw [Op.layer, Op.onTop, hat]
      exact ⟨hc, hsame⟩
    | read i txid =>
      have hkeep := atLayer_keep (fun s hs => getCoins_spec hs txid) i ⟨caches, db⟩ h
      exact ⟨hkeep.2, hkeep.1⟩
    | uncache i txid =>
      have hop (s : View) (hs : s.Coherent) : (s.uncache txid).contents = s.contents ∧ (s.uncache txid).Coherent := by
        obtain ⟨caches', heq, hsame, hc⟩ := uncache_spec hs txid
        rw [heq]
        exact ⟨hsame, hc⟩
      have hkeep := atLayer_keep hop i ⟨caches, db⟩ h
      exact ⟨hkeep.2, hkeep.1⟩
    | flush i =>
      have hkeep := atLayer_keep (fun s hs => flush_spec hs) i ⟨caches, db⟩ h
      exact ⟨hkeep.2, hkeep.1⟩
  · cases hstep

theorem atLayer_eq {op : View → View} {new : List CCoinsViewCache} {i : Nat} (hi : i < caches.length)
    (hop : op ⟨caches.drop i, db⟩ = ⟨new, db'⟩) : View.atLayer i op ⟨caches, db⟩ = ⟨caches.take i ++ new, db'⟩ := by
  induction i generalizing caches with
  | zero => exact hop
  | succ i ih =>
    cases caches with
    | nil => cases hi
    | cons c below =>
      simp only [View.atLayer, ih (Nat.lt_of_succ_lt_succ hi) hop]
      rfl

/-- New coins over an unspent output of the view below: the entry is fresh where it must not
    be, or it is pruned and dropped, and the output below is seen again. -/
theorem newBelow_of_reads {s s' : View × (Uint256 → Option CCoins)} {op : Op} (hmasked : Unmasked s op)
    (hstep : step s op = some s')
    (hreads : Reads s'.1 s'.2) : NewBelow s op := by
  cases op with
  | modifyNew i txid f =>
    obtain ⟨⟨caches, db⟩, m⟩ := s
    intro c below hdrop
    change ∀ c ∈ caches.take i, c.cacheCoins[txid]? = none at hmasked
    change caches.drop i = c :: below at hdrop
    change contents db below txid = none
    unfold step at hstep
    split at hstep
    · next hi =>
      cases hstep
      replace hi : i < caches.length := hi
      let c' := c.endModifier txid ⟨f .empty, true, true⟩
      have hat : View.atLayer i (View.modifyNewCoins txid f) ⟨caches, db⟩ = ⟨caches.take i ++ c' :: below, db⟩ := by
        apply atLayer_eq hi
        rw [hdrop]
        rfl
      have hlength : (caches.take i).length = i := by simp [Nat.le_of_lt hi]
      change Reads (View.atLayer i (View.modifyNewCoins txid f) ⟨caches, db⟩) (flatNew m txid f) at hreads
      rw [hat] at hreads
      have hdropped : (caches.take i ++ c' :: below).drop i = c' :: below := by rw [List.drop_left' hlength]
      cases hpruned : (f .empty).cleanup.isPruned with
      | true =>
        have hnone : c'.cacheCoins[txid]? = none := by simp [c', lookup_endModifier, hpruned]
        have htake : ∀ c ∈ (caches.take i ++ c' :: below).take i, c.cacheCoins[txid]? = none := by
          rw [List.take_left' hlength]
          exact hmasked
        have hread := hreads.coins txid
        rw [getCoins_answer, View.contents, ← contents_drop i htake, hdropped, contents_of_none hnone] at hread
        rw [hread, flatNew, Function.update_self, CCoins.modified, Option.getD_none, CCoins.unspent_of_pruned hpruned]
      | false =>
        have hfresh := Layered.drop hreads.fresh i
        rw [hdropped] at hfresh
        exact hfresh.2 txid ⟨(f .empty).cleanup, true, true⟩ (by simp [c', lookup_endModifier, hpruned]) rfl
    · cases hstep
  | _ => trivial

instance (s : View × (Uint256 → Option CCoins)) (op : Op) : Decidable (Unmasked s op) := by
  cases op <;> unfold Unmasked <;> infer_instance

instance (s : View × (Uint256 → Option CCoins)) (op : Op) : Decidable (NewInView s op) := by
  cases op <;> unfold NewInView <;> infer_instance

/-- Of the runs that modify no layer behind a copy of its coins, those read as the flat map at
    every step that make new coins only where the view below the layer has no unspent output
    of their id. -/
theorem reads_iff_new_below (n : Nat) (db : CCoinsViewDB) (ops : List Op) :
    Meets step Unmasked (start n db) ops ∧ Along step (fun _ _ s => Reads s.1 s.2) (start n db) ops ↔
      Meets step (fun s op => Unmasked s op ∧ NewBelow s op) (start n db) ops := by
  apply meets_and_along_iff fun s => s.1.Coherent ∧ s.1.contents = s.2
  · intro s op s' hi hmasked hnew hstep
    have hafter := step_coherent hi.1 hi.2 hmasked hnew hstep
    exact ⟨hafter, reads_of_coherent hafter.1 hafter.2⟩
  · exact fun s op s' _ hmasked hstep hreads => newBelow_of_reads hmasked hstep hreads
  · intro s op _ hnone
    unfold step at hnone
    split at hnone
    · cases hnone
    · next hi =>
      cases op with
      | modifyNew i txid f =>
        intro c below hdrop
        have hnil : s.1.caches.drop i = [] := List.drop_of_length_le (Nat.le_of_not_lt hi)
        rw [hnil] at hdrop
        cases hdrop
      | _ => trivial
  · exact start_coherent n db

/-! ## An output that comes back -/

namespace Sample

def coin : CCoins := ⟨false, [⟨50, []⟩], 1, 1⟩

def chainstate : CCoinsViewDB where
  coins := (∅ : Map Uint256 CCoins).insert 7 coin
  hashBestBlock := 1
  unpruned txid c h := by
    rw [lookup_insert] at h
    split at h
    · cases h
      rfl
    · simp at h

def tx : CTransaction := { vin := [], vout := [⟨50, []⟩], hash := 7, nVersion := 1 }

/-- The only output of transaction 7 is spent, the transaction is made again and spent again. -/
def ops : List Op := [.modify 0 7 (.spend 0), .modifyNew 0 7 fun _ => .fromTx tx 2, .modify 0 7 (.spend 0)]

end Sample

/-- The view has no unspent output of transaction 7 when its coins are made anew; spent again,
    they leave the cache, and the output of the database is unspent once more. -/
theorem spent_coin_is_back :
    ¬ ∀ (n : Nat) (db : CCoinsViewDB) (ops : List Op), Meets step (fun s op => Unmasked s op ∧ NewInView s op) (start n db) ops →
      Along step (fun _ _ s => Reads s.1 s.2) (start n db) ops := by
  intro h
  have halong := h 1 Sample.chainstate Sample.ops (by decide)
  have hreads := (halong _ rfl).2 _ rfl
  have hlast := (hreads.2 _ rfl).1.coins 7
  revert hlast
  decide

end Zumy.Coins
