/-
  Zumy.PrivateSend.Rejected — a PSVIN that is rejected (privatesend.cpp).

  The checks of the handler answer and return. `AddEntry`, which comes last, answers for the
  collateral, for a full pool and for an input that is in the pool already, and behind each of
  its refusals the handler calls `SetNull`.
-/
import Zumy.PrivateSend.Entries

namespace Zumy.PrivateSend

open CPrivatesendPool Lib

variable {env : Env} {node : Node} {pool pool' : CPrivatesendPool} {nVersion : Int} {vecTxIn : List CTxIn}
    {vecTxOut : List CTxOut}
  {txCollateral : CollateralTx}

namespace CPrivatesendPool

structure SessionKept (pool pool' : CPrivatesendPool) : Prop where
  nState : pool'.nState = pool.nState
  nSessionID : pool'.nSessionID = pool.nSessionID
  vecSessionCollaterals : pool'.vecSessionCollaterals = pool.vecSessionCollaterals
  vecEntries : pool'.vecEntries = pool.vecEntries

structure IsNull (pool : CPrivatesendPool) : Prop where
  nState : pool.nState = .idle
  nSessionID : pool.nSessionID = 0
  vecSessionCollaterals : pool.vecSessionCollaterals = []
  vecEntries : pool.vecEntries = []

def Rejects (env : Env) (node : Node) (pool : CPrivatesendPool) (nVersion : Int) (vecTxIn : List CTxIn)
    (vecTxOut : List CTxOut) (txCollateral : CollateralTx) : Prop :=
  ∃ nMessageID, (pool.processVin env node nVersion vecTxIn vecTxOut txCollateral).2 = [pool.pushStatus .rejected nMessageID]

def RejectionKeepsSession (env : Env) (node : Node) (pool : CPrivatesendPool) (nVersion : Int) (vecTxIn : List CTxIn)
    (vecTxOut : List CTxOut) (txCollateral : CollateralTx) : Prop :=
  Rejects env node pool nVersion vecTxIn vecTxOut txCollateral →
    SessionKept pool (pool.processVin env node nVersion vecTxIn vecTxOut txCollateral).1

/-- What `AddEntry` asks of a message: its collateral is valid, a slot is free, and its inputs are new. -/
def FitsSession (env : Env) (node : Node) (pool : CPrivatesendPool) (vecTxIn : List CTxIn) (txCollateral : CollateralTx) : Prop :=
  isCollateralValid node txCollateral = true ∧ pool.vecEntries.length < env.nPoolMaxTransactions ∧
    ∀ txin ∈ vecTxIn, ∀ t ∈ pool.inputs, t.prevout ≠ txin.prevout

theorem sessionKept_setNull_iff : SessionKept pool (setNull node) ↔ pool.IsNull := by
  constructor
  · rintro ⟨hstate, hid, hcollaterals, hentries⟩
    exact ⟨hstate.symm, hid.symm, hcollaterals.symm, hentries.symm⟩
  · rintro ⟨hstate, hid, hcollaterals, hentries⟩
    exact ⟨hstate.symm, hid.symm, hcollaterals.symm, hentries.symm⟩

/-- The dry run of the mempool has refused null inputs before `AddEntry` looks for them. -/
theorem checkVin_not_null (h : pool.checkVin env node nVersion vecTxIn vecTxOut = .ok ()) :
    ∀ txin ∈ vecTxIn, txin.prevout.isNull = false := by
  unfold checkVin at h
  simp only [ite_error_eq_ok] at h
  obtain ⟨-, -, -, -, -, hlike⟩ := h
  unfold checkLikeTransaction at hlike
  split at hlike
  · cases hlike
  split at hlike
  · cases hlike
  rw [ite_error_eq_ok, ite_error_eq_ok] at hlike
  have haccept := hlike.2.1
  simp only [acceptToMemoryPool, checkTransaction, Bool.not_eq_true', Bool.not_eq_false, Bool.and_eq_true] at haccept
  obtain ⟨⟨⟨-, hinputs⟩, hcoinbase⟩, -⟩ := haccept
  rw [if_neg (by rw [hcoinbase]; exact Bool.false_ne_true)] at hinputs
  intro txin hin
  simpa using List.all_eq_true.1 hinputs txin hin

theorem checkEntry_iff (hvin : pool.checkVin env node nVersion vecTxIn vecTxOut = .ok ()) :
    pool.checkEntry env node (.read vecTxIn vecTxOut txCollateral) = .ok () ↔ FitsSession env node pool vecTxIn txCollateral := by
  have hnull : ¬ (CPrivateSendEntry.read vecTxIn vecTxOut txCollateral).vecTxPSIn.any (·.prevout.isNull) = true := by
    rw [List.any_eq_true]
    rintro ⟨txpsin, hin, hisNull⟩
    obtain ⟨txin, htxin, rfl⟩ := List.mem_map.1 hin
    rw [checkVin_not_null hvin txin htxin] at hisNull
    cases hisNull
  have hknown : (CPrivateSendEntry.read vecTxIn vecTxOut txCollateral).vecTxPSIn.any (fun txin =>
      pool.inputs.any fun txpsin => txpsin.prevout == txin.prevout) = true ↔
      ¬ ∀ txin ∈ vecTxIn, ∀ t ∈ pool.inputs, t.prevout ≠ txin.prevout := by
    simp [CPrivateSendEntry.read, List.any_map]
  unfold checkEntry FitsSession
  rw [if_neg hnull, ite_error_eq_ok, ite_error_eq_ok, ite_error_eq_ok, hknown, not_not, Nat.not_le]
  simp [CPrivateSendEntry.read]

theorem not_rejects_of_accepts (h : Accepts env node pool nVersion vecTxIn vecTxOut txCollateral) :
    ¬ Rejects env node pool nVersion vecTxIn vecTxOut txCollateral := by
  rintro ⟨nMessageID, hanswer⟩
  unfold processVin addEntry at hanswer
  rw [h.1, h.2] at hanswer
  simp [pushStatus] at hanswer

end CPrivatesendPool

/-- Exactly these rejections leave the session as it is: those of the checks in front of `AddEntry`, and those where
    there is no session. -/
theorem rejection_keeps_session_iff (env : Env) (node : Node) (pool : CPrivatesendPool) (nVersion : Int)
    (vecTxIn : List CTxIn) (vecTxOut : List CTxOut) (txCollateral : CollateralTx) :
    RejectionKeepsSession env node pool nVersion vecTxIn vecTxOut txCollateral ↔
      pool.checkVin env node nVersion vecTxIn vecTxOut ≠ .ok () ∨ FitsSession env node pool vecTxIn txCollateral ∨
        pool.IsNull := by
  cases hvin : pool.checkVin env node nVersion vecTxIn vecTxOut with
  | error nMessageID =>
    have hsame : (pool.processVin env node nVersion vecTxIn vecTxOut txCollateral).1 = pool := by
      unfold processVin
      rw [hvin]
    refine iff_of_true (fun _ => ?_) (.inl fun h => by cases h)
    rw [hsame]
    exact ⟨rfl, rfl, rfl, rfl⟩
  | ok =>
    cases hentry : pool.checkEntry env node (.read vecTxIn vecTxOut txCollateral) with
    | ok =>
      have hfits := (checkEntry_iff hvin).1 hentry
      exact iff_of_true (fun h => absurd h (not_rejects_of_accepts ⟨hvin, hentry⟩)) (.inr (.inl hfits))
    | error nMessageID =>
      have hreset : pool.processVin env node nVersion vecTxIn vecTxOut txCollateral =
          (setNull node, [pool.pushStatus .rejected nMessageID]) := by
        unfold processVin addEntry
        rw [hvin, hentry]
      have hunfit : ¬ FitsSession env node pool vecTxIn txCollateral := by
        have hiff : pool.checkEntry env node (.read vecTxIn vecTxOut txCollateral) = .ok () ↔
            FitsSession env node pool vecTxIn txCollateral := checkEntry_iff hvin
        rw [← hiff, hentry]
        exact fun h => by cases h
      unfold RejectionKeepsSession Rejects
      rw [hreset, sessionKept_setNull_iff]
      constructor
      · intro h
        exact .inr (.inr (h ⟨nMessageID, rfl⟩))
      · rintro (hno | hfits | hnull) _
        · exact absurd rfl hno
        · exact absurd hfits hunfit
        · exact hnull

def Sample.poolAfter (es : List Event) : CPrivatesendPool :=
  es.foldl (fun pool e => (handle Sample.net pool e).1) (setNull Sample.node)

/-- With three participants and two entries, the first one's entry comes again. -/
theorem repeated_entry_cancels : ¬ RejectionKeepsSession Sample.net Sample.node (Sample.poolAfter (Sample.session.take 6)) 70000
    [⟨⟨101, 0⟩, [], 0⟩] [⟨1000010, Sample.payTo⟩] (Sample.collateral 1) := by
  intro h
  have hkept := h ⟨.errAlreadyHave, by decide +kernel⟩
  exact absurd hkept.nState (by decide +kernel)

end Zumy.PrivateSend
