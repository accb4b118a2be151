/-
  Zumy.PrivateSend.Entries — what the entries of a session have to do with its collaterals
  and its denomination.

  PSVIN asks for enough collaterals, not for the one of the entry nor for the pool's state;
  it compares the denominations of an entry with those of the entries before it, not with
  the session's.

  - `handle_slots`: an event empties the slots, leaves them as they are, or fills one.
-/
import Zumy.PrivateSend.Session

namespace Zumy.PrivateSend

open Lib CPrivatesendPool

variable {env : Env} {pool pool' : CPrivatesendPool}

/-! ## Slots -/

structure Kept (pool pool' : CPrivatesendPool) : Prop where
  nSessionDenom : pool'.nSessionDenom = pool.nSessionDenom
  collaterals : pool.vecSessionCollaterals ⊆ pool'.vecSessionCollaterals
  entries : SameSlots pool.vecEntries pool'.vecEntries

structure Entered (entry : CPrivateSendEntry) (pool pool' : CPrivatesendPool) : Prop where
  nSessionDenom : pool'.nSessionDenom = pool.nSessionDenom
  collaterals : pool'.vecSessionCollaterals = pool.vecSessionCollaterals
  entries : pool'.vecEntries = pool.vecEntries ++ [entry]

theorem Kept.refl (pool : CPrivatesendPool) : Kept pool pool := ⟨rfl, List.Subset.refl _, rfl⟩

theorem kept_of_sameSession (h : SameSession pool pool') : Kept pool pool' where
  nSessionDenom := h.nSessionDenom
  collaterals := by
    rw [h.collaterals]
    exact List.Subset.refl _
  entries := h.entries

theorem checkPool_slots (node : Node) (hw : WellFormed env pool) :
    (pool.checkPool env node).1 = setNull node ∨
      ((pool.checkPool env node).1.vecEntries = pool.vecEntries ∧
        (pool.checkPool env node).1.vecSessionCollaterals = pool.vecSessionCollaterals ∧
        (pool.checkPool env node).1.nSessionDenom = pool.nSessionDenom) := by
  rcases checkPool_cases env node hw.running with ⟨_, _, heq⟩ | ⟨_, _, heq⟩ | heq
  · rw [heq, createFinalTransaction_fst]
    exact .inr ⟨rfl, rfl, rfl⟩
  · rw [heq, commitFinalTransaction_fst]
    exact .inl rfl
  · rw [heq]
    exact .inr ⟨rfl, rfl, rfl⟩

theorem entered_of_accepts {node : Node} {nVersion : Int} {vecTxIn : List CTxIn} {vecTxOut : List CTxOut}
    {txCollateral : CollateralTx} (hw : WellFormed env pool)
    (h : Accepts env node pool nVersion vecTxIn vecTxOut txCollateral) :
    Entered (.read vecTxIn vecTxOut txCollateral) pool (pool.processVin env node nVersion vecTxIn vecTxOut txCollateral).1 := by
  rw [processVin_of_accepts h]
  have hstate : (pool.pushEntry node (.read vecTxIn vecTxOut txCollateral)).nState ≠ .signing := by
    intro hsigning
    rcases h.state hw with hstate | hstate <;> exact absurd (hstate.symm.trans hsigning) (by decide)
  rcases checkPool_cases env node (h.wellFormed hw).running with ⟨_, _, heq⟩ | ⟨hsigning, _, _⟩ | heq
  · rw [heq, createFinalTransaction_fst]
    exact ⟨rfl, rfl, rfl⟩
  · exact absurd hsigning hstate
  · rw [heq]
    exact ⟨rfl, rfl, rfl⟩

theorem handle_slots (hw : WellFormed env pool) (e : Event) :
    (handle env pool e).1.vecEntries = [] ∨ Kept pool (handle env pool e).1 ∨
    ∃ node nVersion vecTxIn vecTxOut txCollateral, e = .vin node nVersion vecTxIn vecTxOut txCollateral ∧
      reads env node = true ∧ Accepts env node pool nVersion vecTxIn vecTxOut txCollateral := by
  have houtcome := handle_outcome env pool e
  generalize (handle env pool e).1 = pool' at houtcome ⊢
  cases houtcome with
  | same => exact .inr (.inl (.refl pool))
  | reset => exact .inl rfl
  | start _ node nDenom txCollateral rand _ hidle =>
    -- a new session starts with no entries
    exact .inl (hw.entries_of_idle hidle)
  | join => exact .inr (.inl ⟨rfl, List.subset_append_left _ _, rfl⟩)
  | complete => exact .inr (.inl ⟨rfl, List.Subset.refl _, rfl⟩)
  | enter node nVersion vecTxIn vecTxOut txCollateral hreads haccepts =>
    exact .inr (.inr ⟨node, nVersion, vecTxIn, vecTxOut, txCollateral, rfl, hreads, haccepts⟩)
  | sign node nVersion vecTxIn =>
    have hsame := sameSession_addScriptSigs env vecTxIn hw.distinct
    have hkept := kept_of_sameSession hsame
    rcases checkPool_slots node (hw.sameSession hsame) with hnull | ⟨hentries, hcollaterals, hdenom⟩
    · rw [hnull]
      exact .inl rfl
    · refine .inr (.inl ⟨hdenom.trans hkept.nSessionDenom, ?_, ?_⟩)
      · rw [hcollaterals]
        exact hkept.collaterals
      · rw [hentries]
        exact hkept.entries
  | refuse node nVersion vecTxIn => exact .inr (.inl (kept_of_sameSession (sameSession_addScriptSigs env vecTxIn hw.distinct)))

/-! ## Collaterals -/

def Admitted (pool : CPrivatesendPool) (txCollateral : CollateralTx) : Prop :=
  (∃ c ∈ pool.vecSessionCollaterals, c.equal txCollateral = true) ∧
    ∀ entry ∈ pool.vecEntries, entry.txCollateral.equal txCollateral = false

/-- Each entry has a collateral of the session, and no two entries have one collateral. -/
structure Corresponds (pool : CPrivatesendPool) : Prop where
  admitted : ∀ txCollateral ∈ pool.vecEntries.map (·.txCollateral), ∃ c ∈ pool.vecSessionCollaterals, c.equal txCollateral = true
  injective : (pool.vecEntries.map (·.txCollateral)).Pairwise fun a b => a.equal b = false

/-- An entry is accepted while entries are taken, for a collateral of its own. -/
structure EntryStep (pool : CPrivatesendPool) (_ : Event) (pool' : CPrivatesendPool) : Prop where
  accepted : ∀ entry, pool'.vecEntries = pool.vecEntries ++ [entry] →
    pool.nState = .acceptingEntries ∧ Admitted pool entry.txCollateral
  corresponds : Corresponds pool'

/-- A PSVIN that passes the checks comes after the queue, with a collateral promised and not yet used. -/
def Promised (env : Env) (pool : CPrivatesendPool) : Event → Prop
  | .vin node nVersion vecTxIn vecTxOut txCollateral =>
    reads env node = true → Accepts env node pool nVersion vecTxIn vecTxOut txCollateral →
      pool.nState ≠ .queue ∧ Admitted pool txCollateral
  | _ => True

theorem corresponds_nil (h : pool.vecEntries = []) : Corresponds pool where
  admitted := by simp [h]
  injective := by simp [h]

theorem Corresponds.kept (hc : Corresponds pool) (h : Kept pool pool') : Corresponds pool' where
  admitted := by
    rw [h.entries.txCollaterals]
    intro txCollateral hmem
    obtain ⟨c, hin, heq⟩ := hc.admitted txCollateral hmem
    exact ⟨c, h.collaterals hin, heq⟩
  injective := by
    rw [h.entries.txCollaterals]
    exact hc.injective

theorem Corresponds.entered {entry : CPrivateSendEntry} (hc : Corresponds pool) (ha : Admitted pool entry.txCollateral)
    (h : Entered entry pool pool') : Corresponds pool' where
  admitted := by
    rw [h.entries, h.collaterals, List.map_append, List.forall_mem_append]
    refine ⟨hc.admitted, ?_⟩
    intro txCollateral hmem
    rw [List.mem_singleton.1 hmem]
    exact ha.1
  injective := by
    rw [h.entries, List.map_append, List.pairwise_append]
    refine ⟨hc.injective, List.pairwise_singleton _ _, ?_⟩
    intro a hin b hb
    obtain ⟨e, he, rfl⟩ := List.mem_map.1 hin
    rw [List.mem_singleton.1 hb]
    exact ha.2 e he

theorem entryStep_of_length {e : Event} (hlen : pool'.vecEntries.length ≤ pool.vecEntries.length) (hc : Corresponds pool') :
    EntryStep pool e pool' where
  accepted entry h := by
    rw [h, List.length_append, List.length_singleton] at hlen
    omega
  corresponds := hc

theorem entryStep_of_promised (hw : WellFormed env pool) (hc : Corresponds pool) (e : Event) (hp : Promised env pool e) :
    EntryStep pool e (handle env pool e).1 := by
  rcases handle_slots hw e with hnil | hkept | ⟨node, nVersion, vecTxIn, vecTxOut, txCollateral, rfl, hreads, haccepts⟩
  · apply entryStep_of_length
    · rw [hnil]
      exact Nat.zero_le _
    · exact corresponds_nil hnil
  · exact entryStep_of_length (Nat.le_of_eq hkept.entries.length) (hc.kept hkept)
  · obtain ⟨hqueue, hadmitted⟩ := hp hreads haccepts
    have hentered := entered_of_accepts hw haccepts
    simp only [handle]
    rw [if_pos hreads]
    refine ⟨?_, hc.entered hadmitted hentered⟩
    intro entry heq
    have hentry : entry = .read vecTxIn vecTxOut txCollateral := by
      rw [hentered.entries] at heq
      simpa using heq.symm
    rw [hentry]
    exact ⟨(haccepts.state hw).resolve_left hqueue, hadmitted⟩

theorem promised_of_entryStep (hw : WellFormed env pool) (e : Event) (h : EntryStep pool e (handle env pool e).1) :
    Promised env pool e := by
  cases e with
  | vin node nVersion vecTxIn vecTxOut txCollateral =>
    intro hreads haccepts
    simp only [handle] at h
    rw [if_pos hreads] at h
    obtain ⟨hstate, hadmitted⟩ := h.accepted _ (entered_of_accepts hw haccepts).entries
    refine ⟨?_, hadmitted⟩
    rw [hstate]
    decide
  | _ => trivial

def Matching (pool : CPrivatesendPool) : Prop :=
  ∀ vecTxPSOut ∈ pool.vecEntries.map (·.vecTxPSOut), getDenominations vecTxPSOut = pool.nSessionDenom

def FirstMatches (env : Env) (pool : CPrivatesendPool) : Event → Prop
  | .vin node nVersion vecTxIn vecTxOut txCollateral =>
    reads env node = true → Accepts env node pool nVersion vecTxIn vecTxOut txCollateral →
      pool.vecEntries = [] → getDenominations vecTxOut = pool.nSessionDenom
  | _ => True

theorem matching_nil (h : pool.vecEntries = []) : Matching pool := by
  intro vecTxPSOut hmem
  rw [h] at hmem
  cases hmem

theorem CPrivatesendPool.Accepts.matches {node : Node} {nVersion : Int} {vecTxIn : List CTxIn} {vecTxOut : List CTxOut}
    {txCollateral : CollateralTx} (h : Accepts env node pool nVersion vecTxIn vecTxOut txCollateral) (hm : Matching pool)
    (hfirst : pool.vecEntries = [] → getDenominations vecTxOut = pool.nSessionDenom) :
    getDenominations vecTxOut = pool.nSessionDenom := by
  have hcompatible := (checkVin_ok h.1).2.1
  unfold isOutputsCompatibleWithSessionDenom at hcompatible
  split at hcompatible
  · cases hcompatible
  cases hentries : pool.vecEntries with
  | nil => exact hfirst hentries
  | cons entry rest =>
    rw [hentries, List.all_cons, Bool.and_eq_true, beq_iff_eq] at hcompatible
    rw [hcompatible.1]
    apply hm
    rw [hentries]
    exact List.mem_cons_self

theorem matching_handle (hw : WellFormed env pool) (hm : Matching pool) (e : Event) (hok : FirstMatches env pool e) :
    Matching (handle env pool e).1 := by
  rcases handle_slots hw e with hnil | hkept | ⟨node, nVersion, vecTxIn, vecTxOut, txCollateral, rfl, hreads, haccepts⟩
  · exact matching_nil hnil
  · unfold Matching
    rw [hkept.entries.outs, hkept.nSessionDenom]
    exact hm
  · have hentered := entered_of_accepts hw haccepts
    simp only [handle]
    rw [if_pos hreads]
    unfold Matching
    rw [hentered.entries, hentered.nSessionDenom, List.map_append, List.forall_mem_append]
    refine ⟨hm, ?_⟩
    intro vecTxPSOut hmem
    rw [List.mem_singleton.1 hmem]
    exact haccepts.matches hm (hok hreads haccepts)

theorem firstMatches_of_matching (hw : WellFormed env pool) (e : Event) (h : Matching (handle env pool e).1) :
    FirstMatches env pool e := by
  cases e with
  | vin node nVersion vecTxIn vecTxOut txCollateral =>
    intro hreads haccepts _
    have hentered := entered_of_accepts hw haccepts
    simp only [handle] at h
    rw [if_pos hreads] at h
    rw [← hentered.nSessionDenom]
    apply h
    rw [hentered.entries, List.map_append]
    exact List.mem_append_right _ List.mem_cons_self
  | _ => trivial

/-- From a new pool, over any events: in every state reached all entries have the denominations of the
    session, just when each entry that comes first has them. -/
theorem matching_iff_first_matches (env : Env) (node : Node) (es : List Event) :
    Along (step env) (fun _ _ pool => ∀ entry ∈ pool.vecEntries, getDenominations entry.vecTxPSOut = pool.nSessionDenom)
      (setNull node) es ↔
    Meets (step env) (FirstMatches env) (setNull node) es := by
  apply along_iff_meets_total (fun _ _ => rfl) fun pool => WellFormed env pool ∧ Matching pool
  · intro pool e hinv hok
    have hm := matching_handle hinv.1 hinv.2 e hok
    exact ⟨⟨wellFormed_handle hinv.1 e, hm⟩, List.forall_mem_map.1 hm⟩
  · intro pool e hinv hm
    exact firstMatches_of_matching hinv.1 e (List.forall_mem_map.2 hm)
  · exact ⟨wellFormed_setNull env node, matching_nil rfl⟩

/-- The second smallest denomination is asked for, the smallest one is entered. -/
theorem first_entry_sets_denomination :
    ¬ ∀ (env : Env) (node : Node) (es : List Event),
      Along (step env) (fun _ _ pool => ∀ entry ∈ pool.vecEntries, getDenominations entry.vecTxPSOut = pool.nSessionDenom)
        (setNull node) es := by
  intro h
  have halong := h Sample.net Sample.node
    ([1, 2, 3].map (fun i => .accept Sample.node 70000 4 (Sample.collateral i) 0) ++ [.checkForCompleteQueue] ++ [Sample.vin 1])
  have hall := halong.of_run (run_total (fun _ _ => rfl) _ _) rfl
  revert hall
  decide +kernel

end Zumy.PrivateSend
