/-
  Zumy.PrivateSend.Signatures — what a signature does to the entries of a pool and to its
  final transaction.

  The entries sign as the list of all their inputs does (`signEntries_flatMap`), since no two
  inputs spend one outpoint.

  - `sameSession_addScriptSigs`: a message of signatures changes nothing else.
  - `not_union_addScriptSigs`: else it does not: the final transaction takes the second
    signature of an input, the entry does not.
-/
import Mathlib.Data.List.Nodup
import Mathlib.Data.List.Perm.Basic
import Zumy.PrivateSend.Pool

namespace Zumy.PrivateSend

open Lib

namespace CPrivatesendPool

variable {env : Env} {pool : CPrivatesendPool}

/-! ## Slots -/

def SameSlots (entries entries' : List CPrivateSendEntry) : Prop :=
  entries'.map (fun entry => (entry.vecTxPSOut, entry.txCollateral)) =
    entries.map fun entry => (entry.vecTxPSOut, entry.txCollateral)

namespace SameSlots

variable {entries entries' : List CPrivateSendEntry}

theorem length (h : SameSlots entries entries') : entries'.length = entries.length := by
  have hlen := congrArg List.length h
  rw [List.length_map, List.length_map] at hlen
  exact hlen

theorem outs (h : SameSlots entries entries') : entries'.map (·.vecTxPSOut) = entries.map (·.vecTxPSOut) := by
  have houts := congrArg (List.map Prod.fst) h
  rw [List.map_map, List.map_map] at houts
  exact houts

theorem txCollaterals (h : SameSlots entries entries') : entries'.map (·.txCollateral) = entries.map (·.txCollateral) := by
  have hcollaterals := congrArg (List.map Prod.snd) h
  rw [List.map_map, List.map_map] at hcollaterals
  exact hcollaterals

end SameSlots

/-! ## Signing a list of inputs -/

section Signing

variable {txin t : CTxIn} {l l' : List CTxPSIn} {entries entries' : List CPrivateSendEntry}

@[simp] theorem putScriptSig_prevout : (putScriptSig txin t).prevout = t.prevout := by
  unfold putScriptSig
  split <;> rfl

theorem putScriptSig_of_ne (h : txin.prevout ≠ t.prevout) : putScriptSig txin t = t :=
  if_neg fun hnames => h hnames.1

theorem map_putScriptSig_of_ne (h : ∀ t ∈ l, txin.prevout ≠ t.prevout) :
    (l.map (·.toCTxIn)).map (putScriptSig txin) = l.map (·.toCTxIn) := by
  rw [List.map_map]
  apply List.map_congr_left
  intro t ht
  exact putScriptSig_of_ne (h t ht)

theorem signInputs_cons {t : CTxPSIn} : signInputs txin (t :: l) =
    if Names txin t.toCTxIn then
      if t.fHasSig then none else some ({ t with scriptSig := txin.scriptSig, fHasSig := true } :: l)
    else (signInputs txin l).map (t :: ·) := rfl

theorem signEntries_cons {entry : CPrivateSendEntry} : signEntries txin (entry :: entries) =
    (match signInputs txin entry.vecTxPSIn with
      | some vecTxPSIn => some ({ entry with vecTxPSIn } :: entries)
      | none => (signEntries txin entries).map (entry :: ·)) := rfl

theorem signInputs_eq_none_of_ne (h : ∀ t ∈ l, txin.prevout ≠ t.prevout) : signInputs txin l = none := by
  induction l with
  | nil => rfl
  | cons t l ih =>
    rw [List.forall_mem_cons] at h
    rw [signInputs_cons, if_neg fun hnames => h.1 hnames.1, ih h.2]
    rfl

theorem ne_of_nodup_cons {t : CTxPSIn} (h : ((t :: l).map (·.prevout)).Nodup) (hnames : Names txin t.toCTxIn) :
    ∀ u ∈ l, txin.prevout ≠ u.prevout := by
  intro u hu heq
  rw [List.map_cons, List.nodup_cons] at h
  exact h.1 (List.mem_map.2 ⟨u, hu, heq ▸ hnames.1⟩)

theorem signInputs_eq_some (hnodup : (l.map (·.prevout)).Nodup) (h : signInputs txin l = some l') :
    l'.map (·.toCTxIn) = (l.map (·.toCTxIn)).map (putScriptSig txin) := by
  induction l generalizing l' with
  | nil => cases h
  | cons t l ih =>
    rw [signInputs_cons] at h
    split at h
    · next hnames =>
      split at h
      · cases h
      · cases h
        rw [List.map_cons, List.map_cons, List.map_cons, map_putScriptSig_of_ne (ne_of_nodup_cons hnodup hnames), putScriptSig,
          if_pos hnames]
    · next hnames =>
      obtain ⟨m, hm, rfl⟩ := Option.map_eq_some_iff.1 h
      rw [List.map_cons, List.map_cons, List.map_cons, ih (List.nodup_cons.1 hnodup).2 hm, putScriptSig, if_neg hnames]

theorem signInputs_eq_none_iff (hnodup : (l.map (·.prevout)).Nodup) :
    signInputs txin l = none ↔ ∀ t ∈ l, Names txin t.toCTxIn → t.fHasSig = true := by
  induction l with
  | nil => simp [signInputs]
  | cons t l ih =>
    rw [signInputs_cons, List.forall_mem_cons]
    split
    · next hnames =>
      have hrest (u : CTxPSIn) (hu : u ∈ l) : ¬ Names txin u.toCTxIn := fun h => ne_of_nodup_cons hnodup hnames u hu h.1
      constructor
      · intro h
        refine ⟨fun _ => ?_, fun u hu hu' => absurd hu' (hrest u hu)⟩
        by_contra hsig
        rw [if_neg hsig] at h
        cases h
      · intro h
        rw [if_pos (h.1 hnames)]
    · next hnames =>
      rw [Option.map_eq_none_iff, ih (List.nodup_cons.1 hnodup).2]
      exact ⟨fun h => ⟨fun h' => absurd h' hnames, h⟩, And.right⟩

theorem signInputs_append (hnodup : ((l ++ l').map (·.prevout)).Nodup) :
    signInputs txin (l ++ l') = (match signInputs txin l with
      | some m => some (m ++ l')
      | none => (signInputs txin l').map (l ++ ·)) := by
  induction l with
  | nil => simp [signInputs]
  | cons t l ih =>
    rw [List.cons_append] at hnodup ⊢
    rw [signInputs_cons, signInputs_cons]
    split
    · next hnames =>
      split
      · -- the input is signed, and no later one spends the same outpoint
        have hne := ne_of_nodup_cons hnodup hnames
        rw [signInputs_eq_none_of_ne fun u hu => hne u (List.mem_append_right l hu)]
        rfl
      · rfl
    · rw [ih (List.nodup_cons.1 hnodup).2]
      cases signInputs txin l with
      | some m => rfl
      | none =>
        simp only [Option.map_none, Option.map_map]
        rfl

theorem signEntries_flatMap (hnodup : ((entries.flatMap (·.vecTxPSIn)).map (·.prevout)).Nodup) :
    (signEntries txin entries).map (·.flatMap (·.vecTxPSIn)) = signInputs txin (entries.flatMap (·.vecTxPSIn)) := by
  induction entries with
  | nil => rfl
  | cons entry rest ih =>
    rw [List.flatMap_cons] at hnodup ⊢
    rw [signInputs_append hnodup, ← ih (hnodup.sublist ((List.sublist_append_right _ _).map _))]
    rw [signEntries_cons]
    cases signInputs txin entry.vecTxPSIn with
    | some m => rfl
    | none =>
      simp only [Option.map_map]
      rfl

theorem signEntries_frame (h : signEntries txin entries = some entries') : SameSlots entries entries' := by
  unfold SameSlots
  induction entries generalizing entries' with
  | nil => cases h
  | cons entry rest ih =>
    rw [signEntries_cons] at h
    split at h
    · cases h
      rfl
    · obtain ⟨m, hm, rfl⟩ := Option.map_eq_some_iff.1 h
      rw [List.map_cons, List.map_cons, ih hm]

end Signing

/-! ## A signature -/

def Distinct (pool : CPrivatesendPool) : Prop := (pool.inputs.map (·.prevout)).Nodup

def Union (pool : CPrivatesendPool) : Prop := pool.finalMutableTransaction.vin.Perm pool.merged.vin

def Resigns (env : Env) (pool : CPrivatesendPool) (txin : CTxIn) : Prop :=
  pool.isNewScriptSig env txin = true ∧ ∃ t ∈ pool.inputs, Names txin t.toCTxIn ∧ t.fHasSig = true

instance (txin : CTxIn) : Decidable (Resigns env pool txin) :=
  inferInstanceAs (Decidable (_ ∧ ∃ t ∈ pool.inputs, _))

structure SameSession (pool pool' : CPrivatesendPool) : Prop where
  nState : pool'.nState = pool.nState
  nSessionID : pool'.nSessionID = pool.nSessionID
  nSessionDenom : pool'.nSessionDenom = pool.nSessionDenom
  collaterals : pool'.vecSessionCollaterals = pool.vecSessionCollaterals
  vout : pool'.finalMutableTransaction.vout = pool.finalMutableTransaction.vout
  entries : SameSlots pool.vecEntries pool'.vecEntries
  prevouts : pool'.inputs.map (·.prevout) = pool.inputs.map (·.prevout)

namespace SameSession

variable {pool' pool'' : CPrivatesendPool}

theorem refl (pool : CPrivatesendPool) : SameSession pool pool := ⟨rfl, rfl, rfl, rfl, rfl, rfl, rfl⟩

theorem trans (h : SameSession pool pool') (h' : SameSession pool' pool'') : SameSession pool pool'' where
  nState := h'.nState.trans h.nState
  nSessionID := h'.nSessionID.trans h.nSessionID
  nSessionDenom := h'.nSessionDenom.trans h.nSessionDenom
  collaterals := h'.collaterals.trans h.collaterals
  vout := h'.vout.trans h.vout
  entries := h'.entries.trans h.entries
  prevouts := h'.prevouts.trans h.prevouts

theorem distinct (h : SameSession pool pool') (hd : pool.Distinct) : pool'.Distinct := by
  unfold Distinct at hd ⊢
  rw [h.prevouts]
  exact hd

theorem outputs (h : SameSession pool pool') : pool'.outputs = pool.outputs := by
  rw [CPrivatesendPool.outputs, CPrivatesendPool.outputs, List.flatMap_def, List.flatMap_def, h.entries.outs]

end SameSession

theorem inputs_of_signEntries {txin : CTxIn} {vecEntries : List CPrivateSendEntry} (hd : pool.Distinct)
    (h : signEntries txin pool.vecEntries = some vecEntries) :
    (vecEntries.flatMap (·.vecTxPSIn)).map (·.toCTxIn) = (pool.inputs.map (·.toCTxIn)).map (putScriptSig txin) := by
  apply signInputs_eq_some hd
  rw [inputs, ← signEntries_flatMap hd, h, Option.map_some]

theorem signEntries_eq_none_iff {txin : CTxIn} (hd : pool.Distinct) :
    signEntries txin pool.vecEntries = none ↔ ∀ t ∈ pool.inputs, Names txin t.toCTxIn → t.fHasSig = true := by
  rw [← signInputs_eq_none_iff hd, inputs, ← signEntries_flatMap hd, Option.map_eq_none_iff]

theorem sameSession_addScriptSig (env : Env) (txin : CTxIn) (hd : pool.Distinct) :
    SameSession pool (pool.addScriptSig env txin).1 := by
  unfold addScriptSig
  split
  · exact .refl pool
  split
  · next vecEntries hsome =>
    refine ⟨rfl, rfl, rfl, rfl, rfl, signEntries_frame hsome, ?_⟩
    have hmap := congrArg (List.map CTxIn.prevout) (inputs_of_signEntries hd hsome)
    show (vecEntries.flatMap (·.vecTxPSIn)).map (·.prevout) = _
    simpa [Function.comp_def] using hmap
  · exact ⟨rfl, rfl, rfl, rfl, rfl, rfl, rfl⟩

theorem union_addScriptSig {txin : CTxIn} (hd : pool.Distinct) (hu : pool.Union) (hr : ¬ Resigns env pool txin) :
    (pool.addScriptSig env txin).1.Union := by
  unfold addScriptSig
  split
  · exact hu
  rename_i hnew
  split
  · next vecEntries hsome =>
    have hmap := hu.map (putScriptSig txin)
    rw [merged, ← inputs_of_signEntries hd hsome] at hmap
    exact hmap
  · next hnone =>
    -- no input is named by the signature, so nothing changes
    have hnames (t : CTxIn) (ht : t ∈ pool.finalMutableTransaction.vin) : putScriptSig txin t = t := by
      obtain ⟨u, hin, rfl⟩ := List.mem_map.1 (hu.mem_iff.1 ht)
      apply if_neg
      intro hnames
      have hsig := (signEntries_eq_none_iff hd).1 hnone u hin hnames
      exact hr ⟨by simpa using hnew, u, hin, hnames, hsig⟩
    have hsame : pool.finalMutableTransaction.vin.map (putScriptSig txin) = pool.finalMutableTransaction.vin :=
      (List.map_congr_left hnames).trans (List.map_id _)
    show (pool.finalMutableTransaction.vin.map (putScriptSig txin)).Perm pool.merged.vin
    rw [hsame]
    exact hu

/-- The second signature of an input goes to the final transaction alone, and ends the message. -/
theorem not_union_of_resigns {txin : CTxIn} (hd : pool.Distinct) (hu : pool.Union) (hr : Resigns env pool txin) :
    ∃ pool', pool.addScriptSig env txin = (pool', false) ∧ ¬ pool'.Union := by
  obtain ⟨hnew, t, ht, hnames, hsig⟩ := hr
  have hnone : signEntries txin pool.vecEntries = none := by
    apply (signEntries_eq_none_iff hd).2
    intro u hu' hnames'
    cases List.inj_on_of_nodup_map hd hu' ht (hnames'.1.symm.trans hnames.1)
    exact hsig
  refine ⟨{ pool with finalMutableTransaction.vin := pool.finalMutableTransaction.vin.map (putScriptSig txin) }, ?_, ?_⟩
  · unfold addScriptSig
    rw [hnew, hnone]
    rfl
  · intro hunion
    have hfinal : putScriptSig txin t.toCTxIn ∈ pool.finalMutableTransaction.vin.map (putScriptSig txin) :=
      List.mem_map_of_mem (hu.mem_iff.2 (List.mem_map_of_mem ht))
    obtain ⟨u, hu', heq⟩ := List.mem_map.1 (hunion.mem_iff.1 hfinal)
    -- no entry has the new signature
    have hother : u.scriptSig ≠ txin.scriptSig := by
      have hfirst := (Bool.and_eq_true_iff.1 hnew).1
      simp only [Bool.not_eq_true', List.any_eq_false, beq_iff_eq] at hfirst
      exact hfirst u hu'
    apply hother
    rw [heq, putScriptSig, if_pos hnames]

/-! ## The signatures of a message -/

/-- One turn of the loop; it stops where `AddScriptSig` is false. -/
def signStep (env : Env) (pool : CPrivatesendPool) (txin : CTxIn) : Option CPrivatesendPool :=
  match pool.addScriptSig env txin with
  | (pool', true) => some pool'
  | (_, false) => none

def SignsOnce (env : Env) (pool : CPrivatesendPool) (vecTxIn : List CTxIn) : Prop :=
  Meets (signStep env) (fun pool txin => ¬ Resigns env pool txin) pool vecTxIn

instance (vecTxIn : List CTxIn) : Decidable (SignsOnce env pool vecTxIn) :=
  inferInstanceAs (Decidable (Meets _ _ _ _))

theorem sameSession_addScriptSigs (env : Env) (vecTxIn : List CTxIn) (hd : pool.Distinct) :
    SameSession pool (addScriptSigs env vecTxIn pool).1 := by
  induction vecTxIn generalizing pool with
  | nil => exact .refl pool
  | cons txin vecTxIn ih =>
    have hsame := sameSession_addScriptSig env txin hd
    unfold addScriptSigs
    split
    · next pool' heq =>
      rw [heq] at hsame
      exact hsame.trans (ih (hsame.distinct hd))
    · next pool' heq =>
      rw [heq] at hsame
      exact hsame

/-- The induction is on the inputs of the message: each good turn keeps the union for the next. -/
theorem union_addScriptSigs {vecTxIn : List CTxIn} (hd : pool.Distinct) (hu : pool.Union) (hm : SignsOnce env pool vecTxIn) :
    (addScriptSigs env vecTxIn pool).1.Union := by
  induction vecTxIn generalizing pool with
  | nil => exact hu
  | cons txin vecTxIn ih =>
    have hunion := union_addScriptSig hd hu hm.1
    unfold addScriptSigs
    split
    · next pool' heq =>
      have hsame := sameSession_addScriptSig env txin hd
      rw [heq] at hsame hunion
      exact ih (hsame.distinct hd) hunion (hm.2 pool' (by rw [signStep, heq]))
    · next pool' heq =>
      rw [heq] at hunion
      exact hunion

theorem not_union_addScriptSigs {vecTxIn : List CTxIn} (hd : pool.Distinct) (hu : pool.Union)
    (hm : ¬ SignsOnce env pool vecTxIn) :
    ∃ pool', addScriptSigs env vecTxIn pool = (pool', false) ∧ ¬ pool'.Union := by
  induction vecTxIn generalizing pool with
  | nil => exact absurd trivial hm
  | cons txin vecTxIn ih =>
    by_cases hr : Resigns env pool txin
    · obtain ⟨pool', heq, hbroken⟩ := not_union_of_resigns hd hu hr
      refine ⟨pool', ?_, hbroken⟩
      rw [addScriptSigs, heq]
    · -- the first turn is good, so a later one is not
      have hunion := union_addScriptSig hd hu hr
      have hsame := sameSession_addScriptSig env txin hd
      cases heq : pool.addScriptSig env txin with
      | mk pool' done =>
        rw [heq] at hsame hunion
        have hrest : ¬ ∀ t, signStep env pool txin = some t → SignsOnce env t vecTxIn := fun h => hm ⟨hr, h⟩
        rw [signStep, heq] at hrest
        cases done with
        | false => exact absurd (by simp) hrest
        | true =>
          have hlater : ¬ SignsOnce env pool' vecTxIn := fun h => hrest (by simpa using h)
          obtain ⟨pool'', heq', hbroken⟩ := ih (hsame.distinct hd) hunion hlater
          refine ⟨pool'', ?_, hbroken⟩
          rw [addScriptSigs, heq]
          exact heq'

end CPrivatesendPool

end Zumy.PrivateSend
