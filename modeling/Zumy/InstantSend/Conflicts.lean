/-
  Zumy.InstantSend.Conflicts — `ResolveConflicts` and the pool (instantsend.cpp, main.cpp).

  A complete lock takes its transaction's conflicts out of the pool, and the transaction is
  submitted again. The loop takes every spender of an input for a conflict, the transaction
  itself too; `removeConflicts` leaves that one alone, and `AcceptToMemoryPool` refuses what
  is in the pool already.

  - `locked_not_conflicting`: a conflict is not locked itself, or the lock gives way.
  - `mem_ids_submitted`: what is left of the pool when the transaction was submitted.
-/
import Zumy.InstantSend.LockRequests
import Zumy.Mempool.Departures

namespace Zumy.InstantSend

open Zumy.Lib Relation Mempool Mempool.CTxMemPool
open Coins (CCoins)

/-- What `ResolveConflicts` reads outside `CInstantSend` and the pool. -/
structure PoolEnv where
  now : Int
  /-- The version, fee and size of the request's transaction. -/
  nVersion : Int
  nFee : CAmount
  nTxSize : Nat
  /-- `pcoinsTip->GetCoins` -/
  getCoins : Uint256 → Option CCoins
  GetOutputFor : COutPoint → CTxOut
  /-- Does the transaction meet the rules that are not about the pool or about known coins? -/
  meetsOtherRules : Bool
  /-- `-mempoolexpiry`, in seconds. -/
  mempoolExpiry : Int
  /-- What `TrimToSize` takes. -/
  evicted : List Uint256
  /-- Does `GetTransaction` find the transaction in a block? -/
  inBlock : Bool
  /-- What is done from the first input on that is not unspent: the tip is disconnected, this
      is called again, and the best chain is activated. -/
  reprocessTip : CTxMemPool → Bool × CTxMemPool

def CTxLockCandidate.tx (c : CTxLockCandidate) (nVersion : Int) : Mempool.CTransaction :=
  ⟨c.txLockRequest.toCTransaction, nVersion⟩

/-! ## The function -/

namespace PoolEnv

variable (env : PoolEnv) (s : CInstantSend) (pool : CTxMemPool) (tx : Mempool.CTransaction) (c : CTxLockCandidate)

/-- `MEMPOOL_HEIGHT`. -/
def mempoolHeight : Int := 0x7FFFFFFF

/-- `CCoinsViewMemPool::GetCoins` -/
def viewCoins (txid : Uint256) : Option CCoins :=
  match pool.mapTx[txid]? with
  | some e => some (CCoins.fromTx e.tx mempoolHeight)
  | none => (env.getCoins txid).bind CCoins.unspent

def haveCoins (txid : Uint256) : Bool := (env.viewCoins pool txid).any fun coins => !coins.vout.isEmpty

def entry : CTxMemPoolEntry := .new tx env.nFee env.now env.nTxSize

/-- The rules of `AcceptToMemoryPool`. -/
def admits : Bool :=
  env.meetsOtherRules && !env.haveCoins pool tx.hash && tx.vin.all (fun txin => env.haveCoins pool txin.prevout.hash) &&
    accepts pool (env.entry tx)

/-- `AcceptToMemoryPool`, with the limits on the pool. -/
def acceptToMemoryPool : Bool × CTxMemPool :=
  if env.admits pool tx then
    let pool := ((Mempool.acceptToMemoryPool env.GetOutputFor pool (env.entry tx)).expire (env.now - env.mempoolExpiry)).trimToSize
      env.evicted
    (pool.mapTx.contains tx.hash, pool)
  else (false, pool)

/-- The loop over the inputs, with `fMempoolConflict`; `none` where an input is locked for
    another transaction. -/
def findConflict (txHash : Uint256) : List CTxIn → Bool → Option Bool
  | [], fMempoolConflict => some fMempoolConflict
  | txin :: vin, fMempoolConflict =>
    if (s.getLockedOutPointTxHash txin.prevout).any (· != txHash) then none
    else if pool.mapNextTx.contains txin.prevout then findConflict txHash vin true
    else findConflict txHash vin fMempoolConflict

def isUnspent (o : COutPoint) : Bool := (env.getCoins o.hash).any fun coins => coins.isAvailable o.n

def resolveConflicts : Bool × CTxMemPool :=
  let tx := c.tx env.nVersion
  if !c.isAllOutPointsReady then (true, pool)
  else match findConflict s pool tx.hash tx.vin false with
    | none => (false, pool)
    | some true => env.acceptToMemoryPool (pool.removeConflicts tx) tx
    | some false =>
      if env.inBlock then (true, pool)
      else if tx.vin.all fun txin => env.isUnspent txin.prevout then (true, pool)
      else env.reprocessTip pool

end PoolEnv

section

variable {env : PoolEnv} {s : CInstantSend} {pool : CTxMemPool} {tx : Mempool.CTransaction} {c : CTxLockCandidate} {it : Uint256}

/-! ## The loop -/

def LockedByOther (s : CInstantSend) (tx : Mempool.CTransaction) : Prop :=
  ∃ txin ∈ tx.vin, ∃ hashLocked, s.getLockedOutPointTxHash txin.prevout = some hashLocked ∧ hashLocked ≠ tx.hash

theorem findConflict_eq (s : CInstantSend) (pool : CTxMemPool) (txHash : Uint256) (vin : List CTxIn) (fMempoolConflict : Bool) :
    PoolEnv.findConflict s pool txHash vin fMempoolConflict =
      if vin.any fun txin => (s.getLockedOutPointTxHash txin.prevout).any (· != txHash) then none
      else some (fMempoolConflict || vin.any fun txin => pool.mapNextTx.contains txin.prevout) := by
  induction vin generalizing fMempoolConflict with
  | nil => simp [PoolEnv.findConflict]
  | cons txin vin ih =>
    unfold PoolEnv.findConflict
    rw [List.any_cons, List.any_cons]
    cases (s.getLockedOutPointTxHash txin.prevout).any (· != txHash) with
    | true => rfl
    | false => cases pool.mapNextTx.contains txin.prevout <;> simp [ih]

theorem lockedByOther_iff : LockedByOther s tx ↔
    tx.vin.any (fun txin => (s.getLockedOutPointTxHash txin.prevout).any (· != tx.hash)) = true := by
  simp only [LockedByOther, List.any_eq_true, Option.any_eq_true, bne_iff_ne]

theorem conflictsOf_nonempty_iff : (conflictsOf pool tx).Nonempty ↔
    tx.vin.any (fun txin => pool.mapNextTx.contains txin.prevout) = true := by
  simp only [Finset.Nonempty, mem_conflictsOf, List.any_eq_true]
  constructor
  · rintro ⟨x, txin, htxin, hx⟩
    exact ⟨txin, htxin, contains_iff.2 ⟨x, hx⟩⟩
  · rintro ⟨txin, htxin, hx⟩
    obtain ⟨x, hx⟩ := contains_iff.1 hx
    exact ⟨x, txin, htxin, hx⟩

/-! ## The branches -/

theorem resolveConflicts_not_ready (h : c.isAllOutPointsReady = false) : env.resolveConflicts s pool c = (true, pool) := by
  simp [PoolEnv.resolveConflicts, h]

theorem resolveConflicts_blocked (hready : c.isAllOutPointsReady = true) (h : LockedByOther s (c.tx env.nVersion)) :
    env.resolveConflicts s pool c = (false, pool) := by
  unfold PoolEnv.resolveConflicts
  dsimp only
  rw [hready, findConflict_eq, if_pos (lockedByOther_iff.1 h)]
  rfl

theorem resolveConflicts_conflicting (hready : c.isAllOutPointsReady = true) (hfree : ¬ LockedByOther s (c.tx env.nVersion))
    (h : (conflictsOf pool (c.tx env.nVersion)).Nonempty) :
    env.resolveConflicts s pool c =
      env.acceptToMemoryPool (pool.removeConflicts (c.tx env.nVersion)) (c.tx env.nVersion) := by
  unfold PoolEnv.resolveConflicts
  dsimp only
  rw [hready, findConflict_eq, if_neg (fun hlocked => hfree (lockedByOther_iff.2 hlocked)), conflictsOf_nonempty_iff.1 h]
  rfl

theorem resolveConflicts_clear (hready : c.isAllOutPointsReady = true) (hfree : ¬ LockedByOther s (c.tx env.nVersion))
    (h : conflictsOf pool (c.tx env.nVersion) = ∅) :
    env.resolveConflicts s pool c = if env.inBlock then (true, pool)
      else if (c.tx env.nVersion).vin.all fun txin => env.isUnspent txin.prevout then (true, pool)
      else env.reprocessTip pool := by
  have hnone : (c.tx env.nVersion).vin.any (fun txin => pool.mapNextTx.contains txin.prevout) = false := by
    rw [← Bool.not_eq_true, ← conflictsOf_nonempty_iff, h]
    exact Finset.not_nonempty_empty
  unfold PoolEnv.resolveConflicts
  dsimp only
  rw [hready, findConflict_eq, if_neg (fun hlocked => hfree (lockedByOther_iff.2 hlocked)), hnone]
  rfl

/-! ## Locked transactions -/

def LockedIn (s : CInstantSend) (pool : CTxMemPool) (it : Uint256) : Prop :=
  ∃ e, pool.mapTx[it]? = some e ∧ e.tx.vin ≠ [] ∧ ∀ txin ∈ e.tx.vin, s.getLockedOutPointTxHash txin.prevout = some it

theorem LockedIn.mem (h : LockedIn s pool it) : it ∈ pool.ids := by
  obtain ⟨e, he, -⟩ := h
  exact mem_ids.2 ⟨e, he⟩

theorem locked_not_conflicting (hs : pool.Sound) (hfree : ¬ LockedByOther s tx) (h : LockedIn s pool it)
    (hne : it ≠ tx.hash) : it ∉ conflictsOf pool tx := by
  intro hconflict
  obtain ⟨txin, htxin, hnext⟩ := mem_conflictsOf.1 hconflict
  obtain ⟨e, he, -, hlocked⟩ := h
  obtain ⟨e', he', txin', htxin', hprevout⟩ := (hs.spent _ _).1 hnext
  cases he.symm.trans he'
  have hlock := hlocked txin' htxin'
  rw [hprevout] at hlock
  exact hfree ⟨txin, htxin, it, hlock, hne⟩

/-! ## What is left of the pool -/

/-- It and what it depends on need not make room for the transaction: none of them is in its
    way, and where the transaction is admitted none is old or evicted. -/
def PoolEnv.Spares (env : PoolEnv) (pool : CTxMemPool) (tx : Mempool.CTransaction) (it : Uint256) : Prop :=
  ∀ x, ReflTransGen pool.Spends x it → x ∉ conflictsOf pool tx ∧
    (env.admits (pool.removeConflicts tx) tx = true → ¬ pool.Older (env.now - env.mempoolExpiry) x ∧ x ∉ env.evicted)

theorem self_of_admits (h : env.admits pool tx = true) : ∀ txin ∈ tx.vin, txin.prevout.hash ≠ tx.hash := by
  simp only [PoolEnv.admits, Bool.and_eq_true, Bool.not_eq_true', List.all_eq_true] at h
  intro txin htxin heq
  have hhave := h.1.2 txin htxin
  rw [heq, h.1.1.2] at hhave
  cases hhave

theorem accepts_of_admits (h : env.admits pool tx = true) : accepts pool (env.entry tx) = true := by
  rw [PoolEnv.admits, Bool.and_eq_true] at h
  exact h.2

theorem new_of_admits (h : env.admits pool tx = true) : tx.hash ∉ pool.ids :=
  notMem_ids (accepts_iff.1 (accepts_of_admits h)).2.2.1

theorem conflictsOf_removeConflicts (h : pool.Settled) (hout : tx.hash ∉ pool.ids) :
    conflictsOf (pool.removeConflicts tx) tx = ∅ := by
  have hremoved := without_removeConflicts h.sound h.linked tx
  refine Finset.eq_empty_of_forall_notMem fun x hx => ?_
  obtain ⟨txin, htxin, hnext⟩ := mem_conflictsOf.1 hx
  obtain ⟨hold, hstays⟩ := (hremoved.next_iff h.sound).1 hnext
  have hne : x ≠ tx.hash := fun heq => hout (heq ▸ h.sound.mem_of_next hold)
  exact hstays ⟨x, ⟨mem_conflictsOf.2 ⟨txin, htxin, hold⟩, hne⟩, .refl⟩

theorem mem_ids_removeConflicts (h : pool.Settled) (hout : tx.hash ∉ pool.ids) :
    it ∈ (pool.removeConflicts tx).ids ↔ it ∈ pool.ids ∧ ∀ x, ReflTransGen pool.Spends x it → x ∉ conflictsOf pool tx := by
  rw [(without_removeConflicts h.sound h.linked tx).mem_ids_iff]
  have hne {x : Uint256} (hx : x ∈ conflictsOf pool tx) : x ≠ tx.hash :=
    fun heq => hout (heq ▸ conflictsOf_subset h.sound hx)
  refine and_congr_right fun _ => ⟨fun hnot x hreach hx => hnot ⟨x, ⟨hx, hne hx⟩, hreach⟩, ?_⟩
  rintro hall ⟨x, ⟨hx, -⟩, hreach⟩
  exact hall x hreach hx

theorem mem_ids_submitted (h : pool.Settled) (hout : tx.hash ∉ pool.ids) (hit : it ∈ pool.ids) :
    it ∈ (env.acceptToMemoryPool (pool.removeConflicts tx) tx).2.ids ↔ env.Spares pool tx it := by
  have hremoved := without_removeConflicts h.sound h.linked tx
  have hkept : it ∈ (pool.removeConflicts tx).ids ↔ ∀ x, ReflTransGen pool.Spends x it → x ∉ conflictsOf pool tx := by
    rw [mem_ids_removeConflicts h hout, and_iff_right hit]
  unfold PoolEnv.acceptToMemoryPool PoolEnv.Spares
  cases hadmits : env.admits (pool.removeConflicts tx) tx with
  | false =>
    simp only [Bool.false_eq_true, if_false, false_imp_iff, and_true]
    exact hkept
  | true =>
    simp only [if_true, true_imp_iff]
    have hroom := mem_ids_accept_limit env.GetOutputFor hremoved.sound hremoved.linked (conflictsOf_removeConflicts h hout)
      (accepts_of_admits hadmits) (self_of_admits hadmits) (Int.natCast_nonneg _) (fun heq => hout (heq ▸ hit))
      (env.now - env.mempoolExpiry) env.evicted
    refine hroom.trans ?_
    -- what leads to a transaction that stays is as it was
    have hled (hstays : it ∈ (pool.removeConflicts tx).ids) {x : Uint256} (hreach : ReflTransGen pool.Spends x it) :
        ReflTransGen (outside pool.Spends (led pool.Spends {x | x ∈ conflictsOf pool tx ∧ x ≠ tx.hash})) x it ∧
          (pool.removeConflicts tx).content.waiting x = pool.content.waiting x := by
      have hnot := (hremoved.mem_ids_iff.1 hstays).2
      exact ⟨(hremoved.closed.reach_outside hnot).2 hreach, hremoved.kept x (hremoved.closed.notMem hnot hreach)⟩
    constructor
    · rintro ⟨hstays, hall⟩ x hreach
      obtain ⟨hreach', hsame⟩ := hled hstays hreach
      obtain ⟨hyoung, hevicted⟩ := hall x hreach'
      rw [Older, hsame] at hyoung
      exact ⟨hkept.1 hstays x hreach, hyoung, hevicted⟩
    · intro hall
      have hstays := hkept.2 fun x hreach => (hall x hreach).1
      refine ⟨hstays, fun x hreach' => ?_⟩
      have hreach := ReflTransGen.mono (fun _ _ hl => hl.1) _ _ hreach'
      rw [Older, (hled hstays hreach).2]
      exact (hall x hreach).2

/-- A pool with a spender of an input that is not the transaction does not have the transaction. -/
theorem notMem_of_conflict (hs : pool.Sound) (hsame : ∀ e, pool.mapTx[tx.hash]? = some e → e.tx.vin = tx.vin)
    (hne : conflictsOf pool tx ≠ {tx.hash}) (h : (conflictsOf pool tx).Nonempty) : tx.hash ∉ pool.ids := by
  intro hin
  obtain ⟨e, he⟩ := mem_ids.1 hin
  have hown {txin : CTxIn} (htxin : txin ∈ tx.vin) : pool.mapNextTx[txin.prevout]? = some tx.hash :=
    (hs.spent _ _).2 ⟨e, he, txin, by rwa [hsame e he], rfl⟩
  refine hne (Finset.eq_singleton_iff_nonempty_unique_mem.2 ⟨h, fun x hx => ?_⟩)
  obtain ⟨txin, htxin, hnext⟩ := mem_conflictsOf.1 hx
  exact Option.some.inj (hnext.symm.trans (hown htxin))

theorem resolveConflicts_own (hs : pool.Sound) (hready : c.isAllOutPointsReady = true)
    (h : conflictsOf pool (c.tx env.nVersion) = {(c.tx env.nVersion).hash}) : env.resolveConflicts s pool c = (false, pool) := by
  by_cases hlocked : LockedByOther s (c.tx env.nVersion)
  · exact resolveConflicts_blocked hready hlocked
  have hnonempty : (conflictsOf pool (c.tx env.nVersion)).Nonempty := by
    rw [h]
    exact Finset.singleton_nonempty _
  have hown : ∀ x ∈ conflictsOf pool (c.tx env.nVersion), x = (c.tx env.nVersion).hash := fun x hx => by
    rw [h] at hx
    exact Finset.mem_singleton.1 hx
  have hin : (c.tx env.nVersion).hash ∈ pool.ids := by
    obtain ⟨x, hx⟩ := hnonempty
    exact hown x hx ▸ conflictsOf_subset hs hx
  have hrefused : ¬ env.admits pool (c.tx env.nVersion) = true := fun hadmits => new_of_admits hadmits hin
  rw [resolveConflicts_conflicting hready hlocked hnonempty, removeConflicts_own hown, PoolEnv.acceptToMemoryPool,
    if_neg hrefused]

/-! ## When locked transactions stay -/

/-- Nothing takes a locked transaction out of the pool: it need not make room, and where no
    transaction of the pool is in the way, the blocks that are processed again do not take it. -/
def PoolEnv.Keeps (env : PoolEnv) (pool : CTxMemPool) (tx : Mempool.CTransaction) (it : Uint256) : Prop :=
  ((conflictsOf pool tx).Nonempty → env.Spares pool tx it) ∧
    (conflictsOf pool tx = ∅ → env.inBlock = false → (tx.vin.all fun txin => env.isUnspent txin.prevout) = false →
      (env.reprocessTip pool).1 = false → it ∈ (env.reprocessTip pool).2.ids)

/-- What is left where the lock is complete and no input is locked for another. -/
theorem locked_stays_iff (h : pool.Settled) (hready : c.isAllOutPointsReady = true)
    (hfree : ¬ LockedByOther s (c.tx env.nVersion))
    (hsame : ∀ e, pool.mapTx[(c.tx env.nVersion).hash]? = some e → e.tx.vin = (c.tx env.nVersion).vin)
    (hne : conflictsOf pool (c.tx env.nVersion) ≠ {(c.tx env.nVersion).hash}) (hlocked : LockedIn s pool it) :
    ((env.resolveConflicts s pool c).1 = false ∨ (conflictsOf pool (c.tx env.nVersion)).Nonempty →
        it ∈ (env.resolveConflicts s pool c).2.ids) ↔
      env.Keeps pool (c.tx env.nVersion) it := by
  unfold PoolEnv.Keeps
  rcases (conflictsOf pool (c.tx env.nVersion)).eq_empty_or_nonempty with hnone | hsome
  · rw [resolveConflicts_clear hready hfree hnone, hnone]
    have hmem := hlocked.mem
    cases env.inBlock with
    | true => simp [hmem]
    | false =>
      cases (c.tx env.nVersion).vin.all fun txin => env.isUnspent txin.prevout with
      | true => simp [hmem]
      | false => simp
  · have hout := notMem_of_conflict h.sound hsame hne hsome
    rw [resolveConflicts_conflicting hready hfree hsome, mem_ids_submitted h hout hlocked.mem]
    simp [hsome, hsome.ne_empty]

/-- Where the transaction is in the pool it is refused as soon as its lock is complete. A locked
    transaction leaves with what it depends on, and with the limits on the pool. -/
theorem conflicts_resolved_iff (env : PoolEnv) (s : CInstantSend) (pool : CTxMemPool) (hpool : pool.Settled)
    (c : CTxLockCandidate)
    (hsame : ∀ e, pool.mapTx[(c.tx env.nVersion).hash]? = some e → e.tx.vin = (c.tx env.nVersion).vin) :
    ((conflictsOf pool (c.tx env.nVersion) = {(c.tx env.nVersion).hash} → env.resolveConflicts s pool c = (true, pool)) ∧
      ((env.resolveConflicts s pool c).1 = false ∨ (conflictsOf pool (c.tx env.nVersion)).Nonempty →
        ∀ it, LockedIn s pool it → it ∈ (env.resolveConflicts s pool c).2.ids)) ↔
    (c.isAllOutPointsReady = true → conflictsOf pool (c.tx env.nVersion) ≠ {(c.tx env.nVersion).hash} ∧
      (¬ LockedByOther s (c.tx env.nVersion) → ∀ it, LockedIn s pool it → env.Keeps pool (c.tx env.nVersion) it)) := by
  cases hready : c.isAllOutPointsReady with
  | false =>
    rw [resolveConflicts_not_ready hready]
    exact ⟨fun _ hfalse => absurd hfalse (by decide), fun _ => ⟨fun _ => rfl, fun _ it hlocked => hlocked.mem⟩⟩
  | true =>
    have hown : (conflictsOf pool (c.tx env.nVersion) = {(c.tx env.nVersion).hash} →
      env.resolveConflicts s pool c = (true, pool)) ↔
        conflictsOf pool (c.tx env.nVersion) ≠ {(c.tx env.nVersion).hash} := by
      constructor
      · intro hpasses heq
        have hrefused := resolveConflicts_own (s := s) hpool.sound hready heq
        rw [hpasses heq] at hrefused
        cases hrefused
      · exact fun hne heq => absurd heq hne
    rw [hown, imp_iff_right (Eq.refl true)]
    refine and_congr_right fun hne => ?_
    by_cases hlocked : LockedByOther s (c.tx env.nVersion)
    · rw [resolveConflicts_blocked hready hlocked]
      exact ⟨fun _ hfree => absurd hlocked hfree, fun _ _ it hit => hit.mem⟩
    · rw [imp_iff_right hlocked]
      constructor
      · exact fun hkeeps it hit => (locked_stays_iff hpool hready hlocked hsame hne hit).1 fun hfound => hkeeps hfound it hit
      · exact fun hkeeps hfound it hit => (locked_stays_iff hpool hready hlocked hsame hne hit).2 (hkeeps it hit) hfound

end

/-! ### A transaction in the pool, and a lock above a conflict -/

namespace ConflictSample

open PoolRunSample

def poolEnv : PoolEnv where
  now := 0
  nVersion := 1
  nFee := 10
  nTxSize := 200
  getCoins txid := if txid = 7 then some ⟨false, [⟨6, []⟩], 1, 1⟩ else none
  GetOutputFor _ := ⟨6, []⟩
  meetsOtherRules := true
  mempoolExpiry := 72 * 60 * 60
  evicted := []
  inBlock := false
  reprocessTip pool := (true, pool)

/-- The request for the transaction `hash`, which spends the one output of `spent`, with ten votes. -/
def complete (hash spent : Uint256) : CTxLockCandidate where
  nConfirmedHeight := -1
  txLockRequest := ⟨(spending hash spent).toCTransaction, 0⟩
  mapOutPointLocks := (∅ : Map COutPoint COutPointLock).insert ⟨spent, 0⟩ ⟨⟨spent, 0⟩, (List.range 10).foldl
    (fun m n => m.insert ⟨100, n⟩ ⟨hash, ⟨spent, 0⟩, ⟨100, n⟩, [], -1, 0⟩) ∅⟩

def ownPool : CTxMemPool := pool [accepted 1 7]

def childPool : CTxMemPool := pool [accepted 1 7, accepted 2 1]

def childLocked : CInstantSend := { init with mapLockedOutpoints := (∅ : Map COutPoint Uint256).insert ⟨1, 0⟩ 2 }

theorem settled_ownPool : ownPool.Settled := by
  have hempty : CTxMemPool.empty.Settled := settled_empty rfl rfl rfl rfl
  have horder : InOrder .empty (accepted 1 7) := by decide +kernel
  exact event_settled hempty horder

theorem settled_childPool : childPool.Settled := by
  have horder : InOrder ownPool (accepted 2 1) := by decide +kernel
  exact event_settled settled_ownPool horder

theorem lookup_ownPool (e : CTxMemPoolEntry) (he : ownPool.mapTx[((complete 1 7).tx poolEnv.nVersion).hash]? = some e) :
    e.tx.vin = ((complete 1 7).tx poolEnv.nVersion).vin := by
  have hvin : (ownPool.mapTx[((complete 1 7).tx poolEnv.nVersion).hash]?).map (fun e => e.tx.vin) =
      some ((complete 1 7).tx poolEnv.nVersion).vin := by decide +kernel
  rw [he] at hvin
  exact Option.some.inj hvin

end ConflictSample

open ConflictSample

theorem conflicts_resolved_sample :
    ((conflictsOf ownPool ((complete 1 7).tx 1) = {1} →
        poolEnv.resolveConflicts init ownPool (complete 1 7) = (true, ownPool)) ∧
      ((poolEnv.resolveConflicts init ownPool (complete 1 7)).1 = false ∨ (conflictsOf ownPool ((complete 1 7).tx 1)).Nonempty →
        ∀ it, LockedIn init ownPool it → it ∈ (poolEnv.resolveConflicts init ownPool (complete 1 7)).2.ids)) ↔
    ((complete 1 7).isAllOutPointsReady = true → conflictsOf ownPool ((complete 1 7).tx 1) ≠ {1} ∧
      (¬ LockedByOther init ((complete 1 7).tx 1) →
        ∀ it, LockedIn init ownPool it → poolEnv.Keeps ownPool ((complete 1 7).tx 1) it)) :=
  conflicts_resolved_iff poolEnv init ownPool settled_ownPool (complete 1 7) lookup_ownPool

/-- The ordinary course: the transaction is in the pool when its last vote comes. -/
theorem own_spender_refused : ownPool.Settled ∧
    conflictsOf ownPool ((complete 1 7).tx poolEnv.nVersion) = {((complete 1 7).tx poolEnv.nVersion).hash} ∧
    ¬ poolEnv.resolveConflicts init ownPool (complete 1 7) = (true, ownPool) := by
  refine ⟨settled_ownPool, by decide +kernel, fun h => ?_⟩
  have hrefused : (poolEnv.resolveConflicts init ownPool (complete 1 7)).1 = false := by decide +kernel
  rw [h] at hrefused
  cases hrefused

theorem locked_child_leaves : LockedIn childLocked childPool 2 ∧
    (conflictsOf childPool ((complete 5 7).tx poolEnv.nVersion)).Nonempty ∧
    2 ∉ (poolEnv.resolveConflicts childLocked childPool (complete 5 7)).2.ids := by
  have hvin : (childPool.mapTx[(2 : Uint256)]?).map (fun e => e.tx.vin) = some [⟨⟨1, 0⟩, [], 0⟩] := by decide +kernel
  obtain ⟨e, he, heq⟩ := Option.map_eq_some_iff.1 hvin
  have hlocked : LockedIn childLocked childPool 2 := by
    refine ⟨e, he, by rw [heq]; decide, fun txin htxin => ?_⟩
    rw [heq, List.mem_singleton] at htxin
    rw [htxin]
    decide +kernel
  have hconflict : 1 ∈ conflictsOf childPool ((complete 5 7).tx poolEnv.nVersion) := by decide +kernel
  have hfree : ¬ LockedByOther childLocked ((complete 5 7).tx poolEnv.nVersion) := by
    rw [lockedByOther_iff]
    decide +kernel
  have hout : ((complete 5 7).tx poolEnv.nVersion).hash ∉ childPool.ids := by decide +kernel
  have hspends : childPool.Spends 1 2 := spends_of_any (by decide +kernel)
  refine ⟨hlocked, ⟨1, hconflict⟩, ?_⟩
  rw [resolveConflicts_conflicting (by decide +kernel) hfree ⟨1, hconflict⟩,
    mem_ids_submitted settled_childPool hout hlocked.mem]
  exact fun hspared => (hspared 1 (.single hspends)).1 hconflict

end Zumy.InstantSend
