/-
  Zumy.PrivateSend.Steps — what each event does to a pool.

  - `handle_outcome`: the ways a pool can leave an event.
-/
import Zumy.PrivateSend.Signatures

namespace Zumy.PrivateSend

namespace CPrivatesendPool

variable {env : Env} {node : Node} {pool : CPrivatesendPool}

/-! ## `CheckPool` -/

theorem createFinalTransaction_fst : pool.createFinalTransaction.1 =
    { pool with nState := .signing, finalMutableTransaction := sortFinal pool.merged } := by
  simp [createFinalTransaction, setState]

theorem commitFinalTransaction_fst : (pool.commitFinalTransaction env node).1 = setNull node := by
  unfold commitFinalTransaction
  dsimp only
  split <;> rfl

theorem checkPool_cases (env : Env) (node : Node) (hrun : pool.nState ≠ .error ∧ pool.nState ≠ .success) :
    (pool.nState = .acceptingEntries ∧ env.nPoolMaxTransactions ≤ pool.vecEntries.length ∧
      pool.checkPool env node = pool.createFinalTransaction) ∨
    (pool.nState = .signing ∧ pool.isSignaturesComplete = true ∧
      pool.checkPool env node = pool.commitFinalTransaction env node) ∨
    pool.checkPool env node = (pool, []) := by
  unfold checkPool
  split
  · next h => exact .inl ⟨h.1, h.2, rfl⟩
  split
  · next h => exact .inr (.inl ⟨h.1, h.2, rfl⟩)
  rw [if_neg fun h => h.1.elim hrun.1 hrun.2]
  exact .inr (.inr rfl)

/-! ## Entries -/

theorem ite_error_eq_ok {ε α : Type} {c : Prop} [Decidable c] {e : ε} {x : Except ε α} {a : α} :
    (if c then .error e else x) = .ok a ↔ ¬ c ∧ x = .ok a := by
  split
  · next h => simp [h]
  · next h => simp [h]

section Entry

variable {nVersion : Int} {vecTxIn : List CTxIn} {vecTxOut : List CTxOut} {txCollateral : CollateralTx}
  {entryNew : CPrivateSendEntry}

theorem checkLikeTransaction_ok (h : checkLikeTransaction env node vecTxIn vecTxOut = .ok ()) :
    (vecTxIn.map (·.prevout)).Nodup := by
  unfold checkLikeTransaction at h
  split at h
  · cases h
  split at h
  · cases h
  rw [ite_error_eq_ok, ite_error_eq_ok] at h
  have haccept := h.2.1
  simp only [acceptToMemoryPool, checkTransaction, Bool.not_eq_true', Bool.not_eq_false, Bool.and_eq_true,
    decide_eq_true_eq] at haccept
  exact haccept.1.1.1.2

theorem checkVin_ok (h : pool.checkVin env node nVersion vecTxIn vecTxOut = .ok ()) :
    pool.isSessionReady env = true ∧ pool.isOutputsCompatibleWithSessionDenom vecTxOut = true ∧
      (vecTxIn.map (·.prevout)).Nodup := by
  unfold checkVin at h
  simp only [ite_error_eq_ok, Bool.not_eq_true', Bool.not_eq_false] at h
  obtain ⟨-, hready, -, -, hcompatible, hlike⟩ := h
  exact ⟨hready, hcompatible, checkLikeTransaction_ok hlike⟩

theorem checkEntry_ok (h : pool.checkEntry env node entryNew = .ok ()) :
    pool.vecEntries.length < env.nPoolMaxTransactions ∧
      ∀ txin ∈ entryNew.vecTxPSIn, ∀ t ∈ pool.inputs, t.prevout ≠ txin.prevout := by
  unfold checkEntry at h
  simp only [ite_error_eq_ok, List.any_eq_true, beq_iff_eq, not_exists, not_and] at h
  obtain ⟨-, -, hroom, hnew, -⟩ := h
  exact ⟨Nat.lt_of_not_le hroom, hnew⟩

def Accepts (env : Env) (node : Node) (pool : CPrivatesendPool) (nVersion : Int) (vecTxIn : List CTxIn)
    (vecTxOut : List CTxOut) (txCollateral : CollateralTx) : Prop :=
  pool.checkVin env node nVersion vecTxIn vecTxOut = .ok () ∧
    pool.checkEntry env node (.read vecTxIn vecTxOut txCollateral) = .ok ()

theorem processVin_of_accepts (h : Accepts env node pool nVersion vecTxIn vecTxOut txCollateral) :
    (pool.processVin env node nVersion vecTxIn vecTxOut txCollateral).1 =
      ((pool.pushEntry node (.read vecTxIn vecTxOut txCollateral)).checkPool env node).1 := by
  unfold processVin addEntry
  rw [h.1, h.2]

theorem processVin_cases (env : Env) (node : Node) (pool : CPrivatesendPool) (nVersion : Int) (vecTxIn : List CTxIn)
    (vecTxOut : List CTxOut) (txCollateral : CollateralTx) :
    (pool.processVin env node nVersion vecTxIn vecTxOut txCollateral).1 = pool ∨
    (pool.processVin env node nVersion vecTxIn vecTxOut txCollateral).1 = setNull node ∨
    Accepts env node pool nVersion vecTxIn vecTxOut txCollateral := by
  unfold Accepts processVin addEntry
  split
  · exact .inl rfl
  · next hvin =>
    cases hentry : pool.checkEntry env node (.read vecTxIn vecTxOut txCollateral) with
    | error nMessageID => exact .inr (.inl rfl)
    | ok u => exact .inr (.inr ⟨hvin, rfl⟩)

end Entry

/-! ## Participants -/

section Participants

variable {nDenom : Int} {txCollateral : CollateralTx} {rand : Fin 999999}

/-- The pool after `CreateNewSession` and `AddUserToExistingSession` -/
def withCollateral (pool : CPrivatesendPool) (node : Node) (txCollateral : CollateralTx) : CPrivatesendPool :=
  { pool with
    nTimeLastSuccessfulStep := node.getTimeMillis
    vecSessionCollaterals := pool.vecSessionCollaterals ++ [txCollateral] }

theorem createNewSession_ok {r : CPrivatesendPool × List Action}
    (h : pool.createNewSession node nDenom txCollateral rand = .ok r) :
    pool.nState = .idle ∧
      r = ({ pool.withCollateral node txCollateral with nState := .queue, nSessionID := rand + 1, nSessionDenom := nDenom },
        [.relayQueue nDenom false]) := by
  unfold createNewSession at h
  rw [ite_error_eq_ok, ite_error_eq_ok] at h
  obtain ⟨-, hidle, h⟩ := h
  split at h
  · cases h
  · cases h
    exact ⟨not_not.1 hidle, by simp [setState, withCollateral]⟩

theorem addUserToExistingSession_ok {r : CPrivatesendPool × List Action}
    (h : pool.addUserToExistingSession env node nDenom txCollateral = .ok r) :
    pool.nState = .queue ∧ r = (pool.withCollateral node txCollateral, []) := by
  unfold addUserToExistingSession at h
  rw [ite_error_eq_ok] at h
  obtain ⟨-, h⟩ := h
  split at h
  · cases h
  · rw [ite_error_eq_ok, ite_error_eq_ok] at h
    obtain ⟨hqueue, -, h⟩ := h
    cases h
    exact ⟨not_not.1 hqueue, rfl⟩

/-- What PSACCEPT does: nothing, or a participant joins a session, a new one when the pool is idle. -/
theorem processAccept_cases (env : Env) (node : Node) (pool : CPrivatesendPool) (nVersion nDenom : Int)
    (txCollateral : CollateralTx) (rand : Fin 999999) :
    (pool.processAccept env node nVersion nDenom txCollateral rand).1 = pool ∨
    (pool.vecSessionCollaterals.length < env.nPoolMaxTransactions ∧
      ((pool.nState = .idle ∧ (pool.processAccept env node nVersion nDenom txCollateral rand).1 =
        { pool.withCollateral node txCollateral with nState := .queue, nSessionID := rand + 1, nSessionDenom := nDenom }) ∨
      (pool.nState = .queue ∧
        (pool.processAccept env node nVersion nDenom txCollateral rand).1 = pool.withCollateral node txCollateral))) := by
  unfold processAccept
  split
  · exact .inl rfl
  split
  · exact .inl rfl
  rename_i hready
  have hroom : pool.vecSessionCollaterals.length < env.nPoolMaxTransactions := by simpa [isSessionReady] using hready
  split
  · exact .inl rfl
  split
  · exact .inl rfl
  dsimp only
  split
  · next pool' actions hok =>
    refine .inr ⟨hroom, ?_⟩
    split at hok
    · obtain ⟨hidle, heq⟩ := createNewSession_ok hok
      cases heq
      exact .inl ⟨hidle, rfl⟩
    · obtain ⟨hqueue, heq⟩ := addUserToExistingSession_ok hok
      cases heq
      exact .inr ⟨hqueue, rfl⟩
  · exact .inl rfl

theorem not_commit_processAccept {nVersion : Int} (p : CPrivatesendPool) :
    .commitFinalTransaction p ∉ (pool.processAccept env node nVersion nDenom txCollateral rand).2 := by
  unfold processAccept
  split
  · simp [pushStatus]
  split
  · simp [pushStatus]
  split
  · simp [pushStatus]
  split
  · simp [pushStatus]
  dsimp only
  split
  · next pool' actions hok =>
    split at hok
    · cases (createNewSession_ok hok).2
      simp [pushStatus]
    · cases (addUserToExistingSession_ok hok).2
      simp [pushStatus]
  · simp [pushStatus]

end Participants

/-! ## The pool's thread -/

theorem checkTimeout_cases (node : Node) (pool : CPrivatesendPool) :
    pool.checkTimeout node = pool ∨ pool.checkTimeout node = setNull node := by
  unfold checkTimeout
  generalize (if pool.nState = .signing then privatesendSigningTimeout else privatesendQueueTimeout) = nTimeout
  dsimp only
  split
  · exact .inl rfl
  split
  · exact .inr rfl
  · exact .inl rfl

theorem checkForCompleteQueue_cases (env : Env) (pool : CPrivatesendPool) :
    (pool.checkForCompleteQueue env).1 = pool ∨
    (pool.nState = .queue ∧ (pool.checkForCompleteQueue env).1 = { pool with nState := .acceptingEntries }) := by
  unfold checkForCompleteQueue
  split
  · next h => exact .inr ⟨h.1, by simp [setState]⟩
  · exact .inl rfl

end CPrivatesendPool

/-! ## Outcomes -/

open CPrivatesendPool

variable {env : Env} {pool : CPrivatesendPool}

inductive Outcome (env : Env) (pool : CPrivatesendPool) : Event → CPrivatesendPool → Prop
  | same (e : Event) : Outcome env pool e pool
  | reset (e : Event) (node : Node) : Outcome env pool e (setNull node)
  | start (e : Event) (node : Node) (nDenom : Int) (txCollateral : CollateralTx) (rand : Fin 999999) :
      pool.vecSessionCollaterals.length < env.nPoolMaxTransactions → pool.nState = .idle →
      Outcome env pool e { pool.withCollateral node txCollateral with
        nState := .queue
        nSessionID := rand + 1
        nSessionDenom := nDenom }
  | join (e : Event) (node : Node) (txCollateral : CollateralTx) :
      pool.vecSessionCollaterals.length < env.nPoolMaxTransactions → pool.nState = .queue →
      Outcome env pool e (pool.withCollateral node txCollateral)
  | complete (e : Event) : pool.nState = .queue → Outcome env pool e { pool with nState := .acceptingEntries }
  | enter (node : Node) (nVersion : Int) (vecTxIn : List CTxIn) (vecTxOut : List CTxOut) (txCollateral : CollateralTx) :
      reads env node = true → Accepts env node pool nVersion vecTxIn vecTxOut txCollateral →
      Outcome env pool (.vin node nVersion vecTxIn vecTxOut txCollateral)
        ((pool.pushEntry node (.read vecTxIn vecTxOut txCollateral)).checkPool env node).1
  | sign (node : Node) (nVersion : Int) (vecTxIn : List CTxIn) :
      reads env node = true → minPrivatesendPeerProtoVersion ≤ nVersion → (addScriptSigs env vecTxIn pool).2 = true →
      Outcome env pool (.signFinalTx node nVersion vecTxIn) ((addScriptSigs env vecTxIn pool).1.checkPool env node).1
  | refuse (node : Node) (nVersion : Int) (vecTxIn : List CTxIn) :
      reads env node = true → minPrivatesendPeerProtoVersion ≤ nVersion → (addScriptSigs env vecTxIn pool).2 = false →
      Outcome env pool (.signFinalTx node nVersion vecTxIn) (addScriptSigs env vecTxIn pool).1

theorem processSignFinalTx_outcome {node : Node} {nVersion : Int} (hreads : reads env node = true) (vecTxIn : List CTxIn) :
    Outcome env pool (.signFinalTx node nVersion vecTxIn) (pool.processSignFinalTx env node nVersion vecTxIn).1 := by
  by_cases hversion : nVersion < minPrivatesendPeerProtoVersion
  · rw [processSignFinalTx, if_pos hversion]
    exact .same _
  · have hcurrent : minPrivatesendPeerProtoVersion ≤ nVersion := Int.not_lt.1 hversion
    have hsign (hdone : (addScriptSigs env vecTxIn pool).2 = true) := Outcome.sign node nVersion vecTxIn hreads hcurrent hdone
    have hrefuse (hdone : (addScriptSigs env vecTxIn pool).2 = false) :=
      Outcome.refuse node nVersion vecTxIn hreads hcurrent hdone
    rw [processSignFinalTx, if_neg hversion]
    cases heq : addScriptSigs env vecTxIn pool with
    | mk pool' done =>
      rw [heq] at hsign hrefuse
      cases done with
      | true => exact hsign rfl
      | false => exact hrefuse rfl

theorem handle_outcome (env : Env) (pool : CPrivatesendPool) (e : Event) : Outcome env pool e (handle env pool e).1 := by
  cases e with
  | accept node nVersion nDenom txCollateral rand =>
    simp only [handle]
    split
    · rcases processAccept_cases env node pool nVersion nDenom txCollateral rand with heq | ⟨hroom, ⟨hidle, heq⟩ | ⟨hqueue, heq⟩⟩
      · rw [heq]
        exact .same _
      · rw [heq]
        exact .start _ node nDenom txCollateral rand hroom hidle
      · rw [heq]
        exact .join _ node txCollateral hroom hqueue
    · exact .same _
  | vin node nVersion vecTxIn vecTxOut txCollateral =>
    simp only [handle]
    split
    · next hreads =>
      rcases processVin_cases env node pool nVersion vecTxIn vecTxOut txCollateral with heq | heq | haccepts
      · rw [heq]
        exact .same _
      · rw [heq]
        exact .reset _ node
      · rw [processVin_of_accepts haccepts]
        exact .enter node nVersion vecTxIn vecTxOut txCollateral hreads haccepts
    · exact .same _
  | signFinalTx node nVersion vecTxIn =>
    simp only [handle]
    split
    · next hreads => exact processSignFinalTx_outcome hreads vecTxIn
    · exact .same _
  | checkTimeout node =>
    rcases checkTimeout_cases node pool with heq | heq
    · rw [handle, heq]
      exact .same _
    · rw [handle, heq]
      exact .reset _ node
  | checkForCompleteQueue =>
    rcases checkForCompleteQueue_cases env pool with heq | ⟨hqueue, heq⟩
    · rw [handle, heq]
      exact .same _
    · rw [handle, heq]
      exact .complete _ hqueue
  | resetPool node => exact .reset _ node

/-! ## What is committed -/

theorem of_commit_checkPool {node : Node} {p : CPrivatesendPool}
    (h : .commitFinalTransaction p ∈ (pool.checkPool env node).2) :
    p = pool ∧ pool.nState = .signing ∧ pool.isSignaturesComplete = true := by
  unfold checkPool at h
  split at h
  · simp [createFinalTransaction] at h
  split at h
  · next hcomplete =>
    unfold commitFinalTransaction at h
    dsimp only at h
    split at h <;> exact ⟨by simpa using h, hcomplete⟩
  split at h <;> cases h

/-- `CommitFinalTransaction` is called by `CheckPool` alone, behind the signatures of a message or behind an entry. -/
theorem commit_cases {p : CPrivatesendPool} (e : Event) (h : .commitFinalTransaction p ∈ (handle env pool e).2) :
    p.nState = .signing ∧ p.isSignaturesComplete = true ∧
      ((∃ node nVersion vecTxIn, e = .signFinalTx node nVersion vecTxIn ∧ reads env node = true ∧
          minPrivatesendPeerProtoVersion ≤ nVersion ∧ p = (addScriptSigs env vecTxIn pool).1) ∨
        ∃ node nVersion vecTxIn vecTxOut txCollateral, Accepts env node pool nVersion vecTxIn vecTxOut txCollateral ∧
          p = pool.pushEntry node (.read vecTxIn vecTxOut txCollateral)) := by
  cases e with
  | accept node nVersion nDenom txCollateral rand =>
    simp only [handle] at h
    split at h
    · exact absurd h (not_commit_processAccept p)
    · cases h
  | vin node nVersion vecTxIn vecTxOut txCollateral =>
    simp only [handle] at h
    split at h
    · unfold processVin at h
      split at h
      · simp [pushStatus] at h
      · next hvin =>
        unfold addEntry at h
        cases hentry : pool.checkEntry env node (.read vecTxIn vecTxOut txCollateral) with
        | error nMessageID =>
          rw [hentry] at h
          simp [pushStatus] at h
        | ok u =>
          rw [hentry] at h
          have hcheck : .commitFinalTransaction p ∈
              ((pool.pushEntry node (.read vecTxIn vecTxOut txCollateral)).checkPool env node).2 := by
            simpa [pushStatus, relayStatus] using h
          obtain ⟨rfl, hsigning, hcomplete⟩ := of_commit_checkPool hcheck
          exact ⟨hsigning, hcomplete, .inr ⟨node, nVersion, vecTxIn, vecTxOut, txCollateral, ⟨hvin, hentry⟩, rfl⟩⟩
    · cases h
  | signFinalTx node nVersion vecTxIn =>
    simp only [handle] at h
    split at h
    · next hreads =>
      unfold processSignFinalTx at h
      split at h
      · cases h
      · next hversion =>
        split at h
        · next pool' heq =>
          obtain ⟨rfl, hsigning, hcomplete⟩ := of_commit_checkPool h
          refine ⟨hsigning, hcomplete, .inl ⟨node, nVersion, vecTxIn, rfl, hreads, Int.not_lt.1 hversion, ?_⟩⟩
          rw [heq]
        · simp [relayStatus] at h
    · cases h
  | checkTimeout node => cases h
  | checkForCompleteQueue =>
    simp only [handle, checkForCompleteQueue] at h
    split at h <;> simp at h
  | resetPool node => cases h

theorem isSignaturesComplete_of_mem {p : CPrivatesendPool} (e : Event)
    (h : .commitFinalTransaction p ∈ (handle env pool e).2) : p.isSignaturesComplete = true :=
  (commit_cases e h).2.1

end Zumy.PrivateSend
