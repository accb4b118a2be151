/-
  Zumy.PrivateSend.Session — the session of a mixing pool, over every order of messages,
  timeouts and steps of the pool's thread.

  - `WellFormed`: what every event keeps (`wellFormed_handle`).
  - `union_handle`: the final transaction stays the union of the entries, unless a message
    signs an input twice.
-/
import Zumy.PrivateSend.Steps

namespace Zumy.PrivateSend

open Lib

namespace CPrivatesendPool

variable {env : Env} {node : Node} {pool : CPrivatesendPool}

/-! ## What every event keeps -/

structure WellFormed (env : Env) (pool : CPrivatesendPool) : Prop where
  idle_iff_id : pool.nState = .idle ↔ pool.nSessionID = 0
  idle_iff_collaterals : pool.nState = .idle ↔ pool.vecSessionCollaterals = []
  entries_of_idle : pool.nState = .idle → pool.vecEntries = []
  running : pool.nState ≠ .error ∧ pool.nState ≠ .success
  collaterals_le : pool.vecSessionCollaterals.length ≤ env.nPoolMaxTransactions
  entries_le : pool.vecEntries.length ≤ env.nPoolMaxTransactions
  full : pool.nState = .signing → pool.vecEntries.length = env.nPoolMaxTransactions
  distinct : pool.Distinct
  outputs : pool.nState = .signing → pool.finalMutableTransaction.vout.Perm pool.outputs

theorem wellFormed_setNull (env : Env) (node : Node) : WellFormed env (setNull node) where
  idle_iff_id := by simp [setNull]
  idle_iff_collaterals := by simp [setNull]
  entries_of_idle _ := rfl
  running := by simp [setNull]
  collaterals_le := Nat.zero_le _
  entries_le := Nat.zero_le _
  full h := by cases h
  distinct := List.nodup_nil
  outputs h := by cases h

theorem WellFormed.sameSession {pool' : CPrivatesendPool} (hw : WellFormed env pool) (h : SameSession pool pool') :
    WellFormed env pool' where
  idle_iff_id := by
    rw [h.nState, h.nSessionID]
    exact hw.idle_iff_id
  idle_iff_collaterals := by
    rw [h.nState, h.collaterals]
    exact hw.idle_iff_collaterals
  entries_of_idle hidle := by
    have hnil := hw.entries_of_idle (h.nState ▸ hidle)
    rw [← List.length_eq_zero_iff, h.entries.length, hnil, List.length_nil]
  running := by
    rw [h.nState]
    exact hw.running
  collaterals_le := by
    rw [h.collaterals]
    exact hw.collaterals_le
  entries_le := by
    rw [h.entries.length]
    exact hw.entries_le
  full hsigning := by
    rw [h.entries.length]
    exact hw.full (h.nState ▸ hsigning)
  distinct := h.distinct hw.distinct
  outputs hsigning := by
    rw [h.vout, h.outputs]
    exact hw.outputs (h.nState ▸ hsigning)

theorem union_createFinalTransaction : pool.createFinalTransaction.1.Union := by
  rw [createFinalTransaction_fst]
  exact List.perm_insertionSort _ _

theorem wellFormed_createFinalTransaction (hw : WellFormed env pool) (hstate : pool.nState = .acceptingEntries)
    (hfull : env.nPoolMaxTransactions ≤ pool.vecEntries.length) : WellFormed env pool.createFinalTransaction.1 := by
  rw [createFinalTransaction_fst]
  have hidle : pool.nState ≠ .idle := by
    rw [hstate]
    decide
  exact {
    idle_iff_id := by simpa [hstate] using hw.idle_iff_id
    idle_iff_collaterals := by simpa [hstate] using hw.idle_iff_collaterals
    entries_of_idle := by simp
    running := by simp
    collaterals_le := hw.collaterals_le
    entries_le := hw.entries_le
    full := fun _ => Nat.le_antisymm hw.entries_le hfull
    distinct := hw.distinct
    outputs := fun _ => List.perm_insertionSort _ _ }

theorem wellFormed_checkPool (hw : WellFormed env pool) : WellFormed env (pool.checkPool env node).1 := by
  rcases checkPool_cases env node hw.running with ⟨hstate, hfull, heq⟩ | ⟨_, _, heq⟩ | heq
  · rw [heq]
    exact wellFormed_createFinalTransaction hw hstate hfull
  · rw [heq, commitFinalTransaction_fst]
    exact wellFormed_setNull env node
  · rw [heq]
    exact hw

/-- After `CheckPool` the final transaction is the union, or it was not made by it. -/
theorem union_checkPool (hw : WellFormed env pool) (hu : pool.nState = .signing → pool.Union)
    (h : (pool.checkPool env node).1.nState = .signing) : (pool.checkPool env node).1.Union := by
  rcases checkPool_cases env node hw.running with ⟨_, _, heq⟩ | ⟨_, _, heq⟩ | heq
  · rw [heq]
    exact union_createFinalTransaction
  · rw [heq, commitFinalTransaction_fst] at h
    cases h
  · rw [heq] at h ⊢
    exact hu h

section Entry

variable {nVersion : Int} {vecTxIn : List CTxIn} {vecTxOut : List CTxOut} {txCollateral : CollateralTx}

theorem Accepts.state (h : Accepts env node pool nVersion vecTxIn vecTxOut txCollateral) (hw : WellFormed env pool) :
    pool.nState = .queue ∨ pool.nState = .acceptingEntries := by
  have hroom := (checkEntry_ok h.2).1
  have hready : env.nPoolMaxTransactions ≤ pool.vecSessionCollaterals.length := by
    simpa [isSessionReady] using (checkVin_ok h.1).1
  cases hstate : pool.nState with
  | idle =>
    have hnil := hw.idle_iff_collaterals.1 hstate
    rw [hnil, List.length_nil] at hready
    omega
  | queue => exact .inl rfl
  | acceptingEntries => exact .inr rfl
  | signing =>
    have hfull := hw.full hstate
    omega
  | error => exact absurd hstate hw.running.1
  | success => exact absurd hstate hw.running.2

theorem Accepts.wellFormed (h : Accepts env node pool nVersion vecTxIn vecTxOut txCollateral) (hw : WellFormed env pool) :
    WellFormed env (pool.pushEntry node (.read vecTxIn vecTxOut txCollateral)) := by
  obtain ⟨hroom, hnew⟩ := checkEntry_ok h.2
  have hidle : pool.nState ≠ .idle := by
    intro hidle
    rcases h.state hw with hstate | hstate <;> simp [hstate] at hidle
  have hsigning : pool.nState ≠ .signing := by
    intro hsigning
    rcases h.state hw with hstate | hstate <;> simp [hstate] at hsigning
  exact {
    idle_iff_id := hw.idle_iff_id
    idle_iff_collaterals := hw.idle_iff_collaterals
    entries_of_idle := fun hstate => absurd hstate hidle
    running := hw.running
    collaterals_le := hw.collaterals_le
    entries_le := by
      show (pool.vecEntries ++ [_]).length ≤ _
      rw [List.length_append, List.length_singleton]
      exact hroom
    full := fun hstate => absurd hstate hsigning
    distinct := by
      show (((pool.vecEntries ++ [CPrivateSendEntry.read vecTxIn vecTxOut txCollateral]).flatMap (·.vecTxPSIn)).map (·.prevout)).Nodup
      rw [List.flatMap_append, List.map_append, List.nodup_append']
      refine ⟨hw.distinct, ?_, ?_⟩
      · simpa [CPrivateSendEntry.read, Function.comp_def] using (checkVin_ok h.1).2.2
      · intro o ho ho'
        obtain ⟨t, ht, rfl⟩ := List.mem_map.1 ho
        rw [List.flatMap_singleton] at ho'
        obtain ⟨txin, hin, heq⟩ := List.mem_map.1 ho'
        exact hnew txin hin t ht heq.symm
    outputs := fun hstate => absurd hstate hsigning }

end Entry

end CPrivatesendPool

open CPrivatesendPool

variable {env : Env} {pool pool' : CPrivatesendPool} {e : Event}

theorem Outcome.wellFormed (h : Outcome env pool e pool') (hw : WellFormed env pool) : WellFormed env pool' := by
  cases h with
  | same => exact hw
  | reset _ node => exact wellFormed_setNull env node
  | start _ node nDenom txCollateral rand hroom hidle =>
    exact {
      idle_iff_id := by simp
      idle_iff_collaterals := by simp [withCollateral]
      entries_of_idle := by simp
      running := by simp
      collaterals_le := by simpa [withCollateral] using Nat.succ_le_of_lt hroom
      entries_le := hw.entries_le
      full := by simp
      distinct := hw.distinct
      outputs := by simp }
  | join _ node txCollateral hroom hqueue =>
    exact {
      idle_iff_id := hw.idle_iff_id
      idle_iff_collaterals := by simp [withCollateral, hqueue]
      entries_of_idle := hw.entries_of_idle
      running := hw.running
      collaterals_le := by simpa [withCollateral] using Nat.succ_le_of_lt hroom
      entries_le := hw.entries_le
      full := hw.full
      distinct := hw.distinct
      outputs := hw.outputs }
  | complete _ hqueue =>
    exact {
      idle_iff_id := by simpa [hqueue] using hw.idle_iff_id
      idle_iff_collaterals := by simpa [hqueue] using hw.idle_iff_collaterals
      entries_of_idle := by simp
      running := by simp
      collaterals_le := hw.collaterals_le
      entries_le := hw.entries_le
      full := by simp
      distinct := hw.distinct
      outputs := by simp }
  | enter node nVersion vecTxIn vecTxOut txCollateral hreads haccepts => exact wellFormed_checkPool (haccepts.wellFormed hw)
  | sign node nVersion vecTxIn => exact wellFormed_checkPool (hw.sameSession (sameSession_addScriptSigs env vecTxIn hw.distinct))
  | refuse node nVersion vecTxIn => exact hw.sameSession (sameSession_addScriptSigs env vecTxIn hw.distinct)

theorem wellFormed_handle (hw : WellFormed env pool) (e : Event) : WellFormed env (handle env pool e).1 :=
  (handle_outcome env pool e).wellFormed hw

/-! ## Consistent sessions -/

/-- A message that is read while signatures are collected signs no input twice. -/
def SignedOnce (env : Env) (pool : CPrivatesendPool) : Event → Prop
  | .signFinalTx node nVersion vecTxIn =>
    reads env node = true → minPrivatesendPeerProtoVersion ≤ nVersion → pool.nState = .signing → SignsOnce env pool vecTxIn
  | _ => True

structure Consistent (env : Env) (pool : CPrivatesendPool) : Prop where
  idle_iff_id : pool.nState = .idle ↔ pool.nSessionID = 0
  id_iff_collaterals : pool.nSessionID = 0 ↔ pool.vecSessionCollaterals = []
  collaterals_le : pool.vecSessionCollaterals.length ≤ env.nPoolMaxTransactions
  entries_le : pool.vecEntries.length ≤ env.nPoolMaxTransactions
  full : pool.nState = .signing → pool.vecEntries.length = env.nPoolMaxTransactions
  vin : pool.nState = .signing → pool.finalMutableTransaction.vin.Perm pool.merged.vin
  vout : pool.nState = .signing → pool.finalMutableTransaction.vout.Perm pool.merged.vout
  distinct : pool.nState = .signing → (pool.finalMutableTransaction.vin.map (·.prevout)).Nodup

theorem CPrivatesendPool.WellFormed.consistent (hw : WellFormed env pool) (hu : pool.nState = .signing → pool.Union) :
    Consistent env pool where
  idle_iff_id := hw.idle_iff_id
  id_iff_collaterals := hw.idle_iff_id.symm.trans hw.idle_iff_collaterals
  collaterals_le := hw.collaterals_le
  entries_le := hw.entries_le
  full := hw.full
  vin := hu
  vout := hw.outputs
  distinct hsigning := by
    rw [((hu hsigning).map _).nodup_iff, merged, List.map_map]
    exact hw.distinct

theorem Outcome.union (h : Outcome env pool e pool') (hw : WellFormed env pool) (hu : pool.nState = .signing → pool.Union)
    (hok : SignedOnce env pool e) (hsigning : pool'.nState = .signing) : pool'.Union := by
  have hsigned (vecTxIn : List CTxIn) (hok : pool.nState = .signing → SignsOnce env pool vecTxIn) :
      (addScriptSigs env vecTxIn pool).1.nState = .signing → (addScriptSigs env vecTxIn pool).1.Union := by
    intro h
    have hstate : pool.nState = .signing := (sameSession_addScriptSigs env vecTxIn hw.distinct).nState ▸ h
    exact union_addScriptSigs hw.distinct (hu hstate) (hok hstate)
  cases h with
  | same => exact hu hsigning
  | reset | start | complete => cases hsigning
  | join _ _ _ _ hqueue => exact absurd (hqueue.symm.trans hsigning) (by decide)
  | enter node nVersion vecTxIn vecTxOut txCollateral hreads haccepts =>
    -- entries are not taken once there is a final transaction
    have hstate : pool.nState ≠ .signing := by
      intro h
      rcases haccepts.state hw with hstate | hstate <;> exact absurd (hstate.symm.trans h) (by decide)
    exact union_checkPool (haccepts.wellFormed hw) (fun h => absurd h hstate) hsigning
  | sign node nVersion vecTxIn hreads hversion =>
    have hw' := hw.sameSession (sameSession_addScriptSigs env vecTxIn hw.distinct)
    exact union_checkPool hw' (hsigned vecTxIn (hok hreads hversion)) hsigning
  | refuse node nVersion vecTxIn hreads hversion => exact hsigned vecTxIn (hok hreads hversion) hsigning

theorem union_handle (hw : WellFormed env pool) (hu : pool.nState = .signing → pool.Union) (e : Event)
    (hok : SignedOnce env pool e) (h : (handle env pool e).1.nState = .signing) : (handle env pool e).1.Union :=
  (handle_outcome env pool e).union hw hu hok h

/-- A message that signs an input twice leaves the final transaction with a signature no entry has. -/
theorem signedOnce_of_consistent (hw : WellFormed env pool) (hu : pool.nState = .signing → pool.Union) (e : Event)
    (h : Consistent env (handle env pool e).1) : SignedOnce env pool e := by
  cases e with
  | signFinalTx node nVersion vecTxIn =>
    intro hreads hversion hsigning
    by_contra htwice
    obtain ⟨pool', heq, hbroken⟩ := not_union_addScriptSigs hw.distinct (hu hsigning) htwice
    have hsame := sameSession_addScriptSigs env vecTxIn hw.distinct
    rw [heq] at hsame
    have hpool : (handle env pool (.signFinalTx node nVersion vecTxIn)).1 = pool' := by
      simp only [handle]
      rw [if_pos hreads, processSignFinalTx, if_neg (Int.not_lt.2 hversion), heq]
    rw [hpool] at h
    exact hbroken (h.vin (hsame.nState.trans hsigning))
  | _ => trivial

/-- The state after a step is consistent, and a transaction that it commits is signed by all. -/
def SessionStep (env : Env) (pool : CPrivatesendPool) (e : Event) (pool' : CPrivatesendPool) : Prop :=
  Consistent env pool' ∧
    ∀ p, .commitFinalTransaction p ∈ (handle env pool e).2 → ∀ entry ∈ p.vecEntries, ∀ t ∈ entry.vecTxPSIn, t.fHasSig = true

/-- From a new pool, over any events: every state reached is consistent and every transaction that is
    committed is signed by all, just when no input is signed twice. -/
theorem consistent_iff_signed_once (env : Env) (node : Node) (es : List Event) :
    Along (step env) (SessionStep env) (setNull node) es ↔ Meets (step env) (SignedOnce env) (setNull node) es := by
  apply along_iff_meets_total (fun _ _ => rfl) fun pool => WellFormed env pool ∧ (pool.nState = .signing → pool.Union)
  · intro pool e hinv hok
    have hw := wellFormed_handle hinv.1 e
    have hu := union_handle hinv.1 hinv.2 e hok
    refine ⟨⟨hw, hu⟩, hw.consistent hu, ?_⟩
    intro p hp entry hentry t ht
    have hcomplete := isSignaturesComplete_of_mem e hp
    simp only [isSignaturesComplete, List.all_eq_true] at hcomplete
    exact hcomplete entry hentry t ht
  · intro pool e hinv hp
    exact signedOnce_of_consistent hinv.1 hinv.2 e hp.1
  · refine ⟨wellFormed_setNull env node, fun h => ?_⟩
    cases h

/-! ## A second signature -/

namespace Sample

def payTo : CScript := [opDup, opHash160, 20] ++ List.replicate 20 7 ++ [opEqualverify, opChecksig]

/-- Every transaction is known and pays one output of the smallest denomination. -/
def node : Node where
  getTimeMillis := 1000
  isBlockchainSynced := true
  nLastSsq := some 0
  countEnabled := 10
  nSsqCount := 0
  getTransaction hash := some ⟨[], [⟨1000010, payTo⟩], hash⟩
  mempoolAccepts _ := true
  lockMain := true
  lockPS := true

def net : Env where
  fLiteMode := false
  nPoolMaxTransactions := 3
  verifyScript scriptSig _ _ _ := !scriptSig.isEmpty && scriptSig.all fun opcode => 0x51 ≤ opcode && opcode ≤ 0x60
  getHash _ := 0

def collateral (i : Nat) : CollateralTx := ⟨⟨[⟨⟨i, 0⟩, [], 0⟩], [⟨0, payTo⟩], i⟩, 0⟩

def accept (i : Nat) : Event := .accept node 70000 8 (collateral i) 0

def vin (i : Nat) : Event := .vin node 70000 [⟨⟨100 + i, 0⟩, [], 0⟩] [⟨1000010, payTo⟩] (collateral i)

def session : List Event := [accept 1, accept 2, accept 3, .checkForCompleteQueue, vin 1, vin 2, vin 3]

def sign (i : Nat) : Event := .signFinalTx node 70000 [⟨⟨100 + i, 0⟩, List.replicate i 0x51, 0⟩]

/-- The third signature completes the transaction. -/
example : (handle net ((session ++ [sign 1, sign 2]).foldl (fun pool e => (handle net pool e).1) (setNull node)) (sign 3)).2.getLast? =
    some (.relayCompletedTransaction 1 .msgSuccess) := by decide +kernel

end Sample

def signTwice : Event := .signFinalTx Sample.node 70000 [⟨⟨101, 0⟩, [0x51], 0⟩, ⟨⟨101, 0⟩, [0x52], 0⟩]

theorem second_signature_diverges :
    ¬ ∀ (env : Env) (node : Node) (es : List Event), Along (step env) (SessionStep env) (setNull node) es := by
  intro h
  have halong := h Sample.net Sample.node (Sample.session ++ [signTwice])
  have hstep := (halong.of_run (run_total (fun _ _ => rfl) _ _) rfl).1
  have hperm := hstep.vin (by decide +kernel)
  revert hperm
  decide +kernel

end Zumy.PrivateSend
