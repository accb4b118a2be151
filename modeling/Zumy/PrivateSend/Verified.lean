/-
  Zumy.PrivateSend.Verified — do the signatures that a masternode collects pass?

  `IsInputScriptSigValid` verifies a signature on a transaction of its own, the entries in their
  order, against the script that came with the entry. That one is not serialized and is empty, so
  that any script passes which leaves something true behind. What is committed is the sorted
  transaction, against the scripts of the coins.

  `spent` is the script of a coin. That the signature hash leaves out the scripts of the inputs
  (SignatureHash in interpreter.cpp) is the assumption on `VerifyScript`.
-/
import Zumy.PrivateSend.Session

namespace Zumy.PrivateSend

open Lib CPrivatesendPool

def blank (txin : CTxIn) : COutPoint × Nat := (txin.prevout, txin.nSequence)

def BlanksScripts (env : Env) : Prop :=
  ∀ scriptSig script tx tx' i, tx.vout = tx'.vout → tx.vin.map blank = tx'.vin.map blank →
    env.verifyScript scriptSig script tx i = env.verifyScript scriptSig script tx' i

variable {env : Env} {spent : COutPoint → CScript} {pool pool' : CPrivatesendPool} {txin : CTxIn}

/-! ## What verifies -/

/-- The input at `i`, with the script it has, passes for the coin it spends. -/
def Passes (env : Env) (spent : COutPoint → CScript) (pool : CPrivatesendPool) (i : Nat) (f : CTxIn) : Prop :=
  env.verifyScript f.scriptSig (spent f.prevout) pool.finalMutableTransaction i = true

def AllPass (env : Env) (spent : COutPoint → CScript) (pool : CPrivatesendPool) : Prop :=
  ∀ p ∈ pool.finalMutableTransaction.vin.zipIdx, Passes env spent pool p.2 p.1

/-- The signature is on the input of the final transaction that it was offered for, and passes there. -/
def Stored (env : Env) (spent : COutPoint → CScript) (txin : CTxIn) (pool : CPrivatesendPool) : Prop :=
  ∃ p ∈ pool.finalMutableTransaction.vin.zipIdx, p.1.prevout = txin.prevout ∧ p.1.scriptSig = txin.scriptSig ∧
    Passes env spent pool p.2 p.1

/-- A signature that gets past the check is offered while signatures are collected, and passes for the coin. -/
def GoodSig (env : Env) (spent : COutPoint → CScript) (pool : CPrivatesendPool) (txin : CTxIn) : Prop :=
  pool.isNewScriptSig env txin = true → ∀ t ∈ pool.inputs, Names txin t.toCTxIn → pool.nState = .signing ∧
    ∀ p ∈ pool.finalMutableTransaction.vin.zipIdx, p.1.prevout = txin.prevout →
      env.verifyScript txin.scriptSig (spent txin.prevout) pool.finalMutableTransaction p.2 = true

instance : Decidable (GoodSig env spent pool txin) :=
  inferInstanceAs (Decidable (_ = true → ∀ t ∈ pool.inputs, _ → _ ∧ ∀ p ∈ pool.finalMutableTransaction.vin.zipIdx, _ → _))

def GoodStep (env : Env) (spent : COutPoint → CScript) (pool : CPrivatesendPool) : Event → Prop
  | .signFinalTx node nVersion vecTxIn =>
    reads env node = true → minPrivatesendPeerProtoVersion ≤ nVersion → Meets (signStep env) (GoodSig env spent) pool vecTxIn
  | _ => True

instance (e : Event) : Decidable (GoodStep env spent pool e) :=
  match e with
  | .signFinalTx .. => inferInstanceAs (Decidable (_ → _ → Meets _ _ _ _))
  | .accept .. | .vin .. | .checkTimeout .. | .checkForCompleteQueue | .resetPool .. => .isTrue trivial

/-! ## What every turn keeps -/

/-- The signed inputs of the final transaction pass; before there is one, nothing is signed. -/
structure Verified (env : Env) (spent : COutPoint → CScript) (pool : CPrivatesendPool) : Prop where
  wellFormed : WellFormed env pool
  tied : pool.nState = .signing → (pool.finalMutableTransaction.vin.map blank).Perm (pool.inputs.map fun t => blank t.toCTxIn)
  signed : pool.nState = .signing → ∀ t ∈ pool.inputs, t.fHasSig = true →
    ∀ p ∈ pool.finalMutableTransaction.vin.zipIdx, p.1.prevout = t.prevout → Passes env spent pool p.2 p.1
  early : pool.nState ≠ .signing → pool.finalMutableTransaction.vin = [] ∧ ∀ t ∈ pool.inputs, t.fHasSig = false

theorem blank_putScriptSig (txin t : CTxIn) : blank (putScriptSig txin t) = blank t := by
  unfold putScriptSig
  split <;> rfl

theorem Verified.input_of_final (h : Verified env spent pool) (hsigning : pool.nState = .signing) {f : CTxIn}
    (hf : f ∈ pool.finalMutableTransaction.vin) : ∃ t ∈ pool.inputs, blank t.toCTxIn = blank f :=
  List.mem_map.1 ((h.tied hsigning).mem_iff.1 (List.mem_map_of_mem hf))

theorem Verified.final_of_input (h : Verified env spent pool) (hsigning : pool.nState = .signing) {t : CTxPSIn}
    (ht : t ∈ pool.inputs) : ∃ f ∈ pool.finalMutableTransaction.vin, blank f = blank t.toCTxIn :=
  List.mem_map.1 ((h.tied hsigning).mem_iff.2 (List.mem_map_of_mem ht))

theorem Verified.names_final (h : Verified env spent pool) (hsigning : pool.nState = .signing) {t : CTxPSIn} {f : CTxIn}
    (ht : t ∈ pool.inputs) (hnames : Names txin t.toCTxIn) (hf : f ∈ pool.finalMutableTransaction.vin)
    (heq : f.prevout = txin.prevout) : Names txin f := by
  obtain ⟨u, hu, hblank⟩ := h.input_of_final hsigning hf
  have hprevout : u.prevout = f.prevout := congrArg Prod.fst hblank
  have hsame : u = t := List.inj_on_of_nodup_map h.wellFormed.distinct hu ht (hprevout.trans (heq.trans hnames.1))
  subst hsame
  exact ⟨heq.symm, (congrArg Prod.snd hblank).symm.trans hnames.2⟩

theorem Verified.allPass (h : Verified env spent pool) (hcomplete : pool.isSignaturesComplete = true) :
    AllPass env spent pool := by
  intro p hp
  by_cases hsigning : pool.nState = .signing
  · obtain ⟨t, ht, hblank⟩ := h.input_of_final hsigning (List.fst_mem_of_mem_zipIdx hp)
    have hsig : t.fHasSig = true := by
      obtain ⟨entry, hentry, hin⟩ := List.mem_flatMap.1 ht
      exact List.all_eq_true.1 (List.all_eq_true.1 hcomplete entry hentry) t hin
    exact h.signed hsigning t ht hsig p hp (congrArg Prod.fst hblank).symm
  · rw [(h.early hsigning).1] at hp
    cases hp

def withSig (pool : CPrivatesendPool) (txin : CTxIn) (vecEntries : List CPrivateSendEntry) : CPrivatesendPool :=
  { pool with
    finalMutableTransaction.vin := pool.finalMutableTransaction.vin.map (putScriptSig txin)
    vecEntries }

/-- A turn does nothing, or puts a signature that gets past the check into the final transaction and, where there is an
    input without one, into the entries. -/
theorem addScriptSig_cases (env : Env) (pool : CPrivatesendPool) (txin : CTxIn) :
    pool.addScriptSig env txin = (pool, false) ∨
    (pool.isNewScriptSig env txin = true ∧
      ((∃ vecEntries, signEntries txin pool.vecEntries = some vecEntries ∧
          pool.addScriptSig env txin = (withSig pool txin vecEntries, true)) ∨
        (signEntries txin pool.vecEntries = none ∧
          pool.addScriptSig env txin = (withSig pool txin pool.vecEntries, false)))) := by
  unfold addScriptSig
  by_cases hnew : pool.isNewScriptSig env txin = true
  · rw [if_neg (by rw [hnew]; exact Bool.false_ne_true)]
    refine .inr ⟨hnew, ?_⟩
    cases hsign : signEntries txin pool.vecEntries with
    | some vecEntries => exact .inl ⟨vecEntries, rfl, rfl⟩
    | none => exact .inr ⟨rfl, rfl⟩
  · rw [if_pos (by simpa using hnew)]
    exact .inl rfl

theorem mem_zipIdx_withSig {vecEntries : List CPrivateSendEntry} {p : CTxIn × Nat}
    (hp : p ∈ (withSig pool txin vecEntries).finalMutableTransaction.vin.zipIdx) :
    ∃ f, (f, p.2) ∈ pool.finalMutableTransaction.vin.zipIdx ∧ p.1 = putScriptSig txin f := by
  change p ∈ (pool.finalMutableTransaction.vin.map (putScriptSig txin)).zipIdx at hp
  rw [List.zipIdx_map] at hp
  obtain ⟨q, hq, rfl⟩ := List.mem_map.1 hp
  exact ⟨q.1, hq, rfl⟩

theorem verify_withSig (hblank : BlanksScripts env) (vecEntries : List CPrivateSendEntry) (scriptSig script : CScript) (i : Nat) :
    env.verifyScript scriptSig script (withSig pool txin vecEntries).finalMutableTransaction i =
      env.verifyScript scriptSig script pool.finalMutableTransaction i := by
  apply hblank
  · rfl
  · show (pool.finalMutableTransaction.vin.map (putScriptSig txin)).map blank = _
    rw [List.map_map]
    exact List.map_congr_left fun f _ => blank_putScriptSig txin f

theorem signed_of_signInputs {l l' : List CTxPSIn} (h : signInputs txin l = some l') :
    ∀ t ∈ l', t.fHasSig = true → t ∈ l ∨ txin.prevout = t.prevout := by
  induction l generalizing l' with
  | nil => cases h
  | cons u l ih =>
    rw [signInputs_cons] at h
    split at h
    · next hnames =>
      split at h
      · cases h
      · cases h
        intro t ht hsig
        rcases List.mem_cons.1 ht with rfl | ht
        · exact .inr hnames.1
        · exact .inl (List.mem_cons_of_mem _ ht)
    · obtain ⟨m, hm, rfl⟩ := Option.map_eq_some_iff.1 h
      intro t ht hsig
      rcases List.mem_cons.1 ht with rfl | ht
      · exact .inl (List.mem_cons_self ..)
      · rcases ih hm t ht hsig with hin | heq
        · exact .inl (List.mem_cons_of_mem _ hin)
        · exact .inr heq

theorem signed_of_signEntries {vecEntries : List CPrivateSendEntry} (hd : pool.Distinct)
    (h : signEntries txin pool.vecEntries = some vecEntries) :
    ∀ t ∈ (withSig pool txin vecEntries).inputs, t.fHasSig = true → t ∈ pool.inputs ∨ txin.prevout = t.prevout := by
  apply signed_of_signInputs
  rw [CPrivatesendPool.inputs, ← signEntries_flatMap hd, h]
  rfl

theorem names_of_signEntries {vecEntries : List CPrivateSendEntry} (hd : pool.Distinct)
    (h : signEntries txin pool.vecEntries = some vecEntries) : ∃ t ∈ pool.inputs, Names txin t.toCTxIn := by
  by_contra hno
  have hnone : signEntries txin pool.vecEntries = none :=
    (signEntries_eq_none_iff hd).2 fun t ht hnames => absurd ⟨t, ht, hnames⟩ hno
  rw [hnone] at h
  cases h

theorem blank_of_signEntries {vecEntries : List CPrivateSendEntry} (hd : pool.Distinct)
    (h : signEntries txin pool.vecEntries = some vecEntries) :
    (withSig pool txin vecEntries).inputs.map (fun t => blank t.toCTxIn) = pool.inputs.map fun t => blank t.toCTxIn := by
  have hmap := congrArg (List.map blank) (inputs_of_signEntries hd h)
  rw [List.map_map, List.map_map, List.map_map] at hmap
  refine hmap.trans (List.map_congr_left fun t _ => ?_)
  exact blank_putScriptSig txin t.toCTxIn

section Turn

variable {vecEntries : List CPrivateSendEntry} {p : CTxIn × Nat}

theorem Verified.passes_named (h : Verified env spent pool) (hblank : BlanksScripts env) (hgood : GoodSig env spent pool txin)
    (hnew : pool.isNewScriptSig env txin = true) {t : CTxPSIn} (ht : t ∈ pool.inputs) (hnames : Names txin t.toCTxIn)
    (hp : p ∈ (withSig pool txin vecEntries).finalMutableTransaction.vin.zipIdx) (heq : p.1.prevout = txin.prevout) :
    p.1.scriptSig = txin.scriptSig ∧ Passes env spent (withSig pool txin vecEntries) p.2 p.1 := by
  obtain ⟨hsigning, hverify⟩ := hgood hnew t ht hnames
  obtain ⟨f, hf, hput⟩ := mem_zipIdx_withSig hp
  have hprevout : f.prevout = txin.prevout := by
    rw [← heq, hput, putScriptSig_prevout]
  have hscript : p.1.scriptSig = txin.scriptSig := by
    rw [hput, putScriptSig, if_pos (h.names_final hsigning ht hnames (List.fst_mem_of_mem_zipIdx hf) hprevout)]
  refine ⟨hscript, ?_⟩
  rw [Passes, hscript, heq, verify_withSig hblank]
  exact hverify (f, p.2) hf hprevout

theorem passes_kept (hblank : BlanksScripts env) {f : CTxIn} (hput : p.1 = f) (hpasses : Passes env spent pool p.2 f) :
    Passes env spent (withSig pool txin vecEntries) p.2 p.1 := by
  rw [Passes, verify_withSig hblank, hput]
  exact hpasses

theorem Verified.withSig_some (h : Verified env spent pool) (hblank : BlanksScripts env) (hgood : GoodSig env spent pool txin)
    (hnew : pool.isNewScriptSig env txin = true) (hsign : signEntries txin pool.vecEntries = some vecEntries)
    (hwell : WellFormed env (withSig pool txin vecEntries)) :
    Verified env spent (withSig pool txin vecEntries) ∧ Stored env spent txin (withSig pool txin vecEntries) := by
  obtain ⟨t, ht, hnames⟩ := names_of_signEntries h.wellFormed.distinct hsign
  obtain ⟨hsigning, -⟩ := hgood hnew t ht hnames
  have htied : ((withSig pool txin vecEntries).finalMutableTransaction.vin.map blank).Perm
      ((withSig pool txin vecEntries).inputs.map fun t => blank t.toCTxIn) := by
    rw [blank_of_signEntries h.wellFormed.distinct hsign]
    show ((pool.finalMutableTransaction.vin.map (putScriptSig txin)).map blank).Perm _
    rw [List.map_map]
    exact (List.Perm.of_eq (List.map_congr_left fun f _ => blank_putScriptSig txin f)).trans (h.tied hsigning)
  refine ⟨⟨hwell, fun _ => htied, fun _ u hu hsig p hp heq => ?_, fun hno => absurd hsigning hno⟩, ?_⟩
  · by_cases hprevout : p.1.prevout = txin.prevout
    · exact (h.passes_named hblank hgood hnew ht hnames hp hprevout).2
    · obtain ⟨f, hf, hput⟩ := mem_zipIdx_withSig hp
      have hold : u ∈ pool.inputs := by
        rcases signed_of_signEntries h.wellFormed.distinct hsign u hu hsig with hin | hnamed
        · exact hin
        · exact absurd (heq.trans hnamed.symm) hprevout
      have hfprevout : f.prevout = p.1.prevout := by rw [hput, putScriptSig_prevout]
      have hkept : p.1 = f := hput.trans (putScriptSig_of_ne fun hsame => hprevout (hfprevout.symm.trans hsame.symm))
      exact passes_kept hblank hkept (h.signed hsigning u hold hsig (f, p.2) hf (hfprevout.trans heq))
  · obtain ⟨f, hf, hblanked⟩ := h.final_of_input hsigning ht
    have hprevout : f.prevout = txin.prevout := (congrArg Prod.fst hblanked).trans hnames.1.symm
    obtain ⟨i, hi⟩ := List.mem_iff_getElem?.1 hf
    have hp : (putScriptSig txin f, i) ∈ (withSig pool txin vecEntries).finalMutableTransaction.vin.zipIdx := by
      rw [List.mem_zipIdx_iff_getElem?]
      show (pool.finalMutableTransaction.vin.map (putScriptSig txin))[i]? = _
      rw [List.getElem?_map, hi]
      rfl
    have heq : (putScriptSig txin f).prevout = txin.prevout := putScriptSig_prevout.trans hprevout
    obtain ⟨hscript, hpasses⟩ := h.passes_named hblank hgood hnew ht hnames hp heq
    exact ⟨_, hp, heq, hscript, hpasses⟩

theorem Verified.withSig_none (h : Verified env spent pool) (hblank : BlanksScripts env) (hgood : GoodSig env spent pool txin)
    (hnew : pool.isNewScriptSig env txin = true) (hwell : WellFormed env (withSig pool txin pool.vecEntries)) :
    Verified env spent (withSig pool txin pool.vecEntries) := by
  refine ⟨hwell, fun hsigning => ?_, fun hsigning u hu hsig p hp heq => ?_, fun hno => ⟨?_, (h.early hno).2⟩⟩
  · show ((pool.finalMutableTransaction.vin.map (putScriptSig txin)).map blank).Perm _
    rw [List.map_map]
    exact (List.Perm.of_eq (List.map_congr_left fun f _ => blank_putScriptSig txin f)).trans (h.tied hsigning)
  · obtain ⟨f, hf, hput⟩ := mem_zipIdx_withSig hp
    have hfprevout : f.prevout = u.prevout := by rw [← heq, hput, putScriptSig_prevout]
    by_cases hnames : Names txin f
    · -- the entry's input is the one that is named
      obtain ⟨v, hv, hblanked⟩ := h.input_of_final hsigning (List.fst_mem_of_mem_zipIdx hf)
      have hnames' : Names txin v.toCTxIn :=
        ⟨hnames.1.trans (congrArg Prod.fst hblanked).symm, (congrArg Prod.snd hblanked).trans hnames.2⟩
      have hprevout : p.1.prevout = txin.prevout := heq.trans (hfprevout.symm.trans hnames.1.symm)
      exact (h.passes_named hblank hgood hnew hv hnames' hp hprevout).2
    · have hkept : p.1 = f := hput.trans (if_neg hnames)
      exact passes_kept hblank hkept (h.signed hsigning u hu hsig (f, p.2) hf hfprevout)
  · show pool.finalMutableTransaction.vin.map (putScriptSig txin) = []
    rw [(h.early hno).1, List.map_nil]

theorem Verified.turn (h : Verified env spent pool) (hblank : BlanksScripts env) (hgood : GoodSig env spent pool txin) :
    Verified env spent (pool.addScriptSig env txin).1 ∧
      ((pool.addScriptSig env txin).2 = true → Stored env spent txin (pool.addScriptSig env txin).1) := by
  have hwell := h.wellFormed.sameSession (sameSession_addScriptSig env txin h.wellFormed.distinct)
  rcases addScriptSig_cases env pool txin with heq | ⟨hnew, ⟨vecEntries, hsign, heq⟩ | ⟨-, heq⟩⟩
  · rw [heq]
    exact ⟨h, fun hno => Bool.noConfusion hno⟩
  · rw [heq] at hwell ⊢
    obtain ⟨hverified, hstored⟩ := h.withSig_some hblank hgood hnew hsign hwell
    exact ⟨hverified, fun _ => hstored⟩
  · rw [heq] at hwell ⊢
    exact ⟨h.withSig_none hblank hgood hnew hwell, fun hno => Bool.noConfusion hno⟩

end Turn

theorem Verified.addScriptSigs {vecTxIn : List CTxIn} (h : Verified env spent pool) (hblank : BlanksScripts env)
    (hgood : Meets (signStep env) (GoodSig env spent) pool vecTxIn) :
    Verified env spent (addScriptSigs env vecTxIn pool).1 ∧
      Along (signStep env) (fun _ txin pool' => Stored env spent txin pool') pool vecTxIn := by
  induction vecTxIn generalizing pool with
  | nil => exact ⟨h, trivial⟩
  | cons txin vecTxIn ih =>
    obtain ⟨hverified, hstored⟩ := h.turn hblank hgood.1
    have hrest := hgood.2
    rw [CPrivatesendPool.addScriptSigs, along_cons]
    rw [signStep] at hrest ⊢
    cases heq : pool.addScriptSig env txin with
    | mk pool' done =>
      rw [heq] at hverified hstored hrest
      cases done with
      | true =>
        obtain ⟨hlast, halong⟩ := ih hverified (hrest pool' rfl)
        refine ⟨hlast, fun s' hs' => ?_⟩
        cases hs'
        exact ⟨hstored rfl, halong⟩
      | false =>
        refine ⟨hverified, fun s' hs' => ?_⟩
        cases hs'

/-! ## Runs -/

theorem verified_setNull (env : Env) (spent : COutPoint → CScript) (node : Node) : Verified env spent (setNull node) where
  wellFormed := wellFormed_setNull env node
  tied h := by cases h
  signed h := by cases h
  early _ := ⟨rfl, fun t ht => by cases ht⟩

theorem Verified.checkPool (h : Verified env spent pool) (node : Node) : Verified env spent (pool.checkPool env node).1 := by
  have hwell : WellFormed env (pool.checkPool env node).1 := wellFormed_checkPool h.wellFormed
  rcases checkPool_cases env node h.wellFormed.running with ⟨hstate, -, heq⟩ | ⟨-, -, heq⟩ | heq
  · rw [heq, createFinalTransaction_fst] at hwell ⊢
    have hearly := (h.early (by rw [hstate]; decide)).2
    refine ⟨hwell, fun _ => ?_, fun _ t ht hsig => ?_, fun hno => absurd rfl hno⟩
    · show ((pool.merged.vin.insertionSort _).map blank).Perm _
      refine ((List.perm_insertionSort _ _).map blank).trans ?_
      rw [merged, List.map_map]
      exact List.Perm.refl _
    · have hunsigned : t.fHasSig = false := hearly t ht
      rw [hunsigned] at hsig
      cases hsig
  · rw [heq, commitFinalTransaction_fst]
    exact verified_setNull env spent node
  · rwa [heq]

/-- A pool in another state before signatures are collected, with the same entries. -/
theorem Verified.moved (h : Verified env spent pool) (hwell : WellFormed env pool') (hstate : pool.nState ≠ .signing)
    (hstate' : pool'.nState ≠ .signing) (hfinal : pool'.finalMutableTransaction = pool.finalMutableTransaction)
    (hentries : pool'.vecEntries = pool.vecEntries) : Verified env spent pool' := by
  refine ⟨hwell, fun hno => absurd hno hstate', fun hno => absurd hno hstate', fun _ => ?_⟩
  rw [hfinal, CPrivatesendPool.inputs, hentries]
  exact h.early hstate

theorem Verified.handled {e : Event} (h : Verified env spent pool) (hblank : BlanksScripts env)
    (hgood : GoodStep env spent pool e) : Verified env spent (handle env pool e).1 := by
  have houtcome := handle_outcome env pool e
  have hwell := houtcome.wellFormed h.wellFormed
  generalize (handle env pool e).1 = pool' at *
  cases houtcome with
  | same => exact h
  | reset _ node => exact verified_setNull env spent node
  | start _ node nDenom txCollateral rand _ hidle =>
    exact h.moved hwell (by rw [hidle]; decide) (fun hno => by cases hno) rfl rfl
  | join _ node txCollateral _ hqueue =>
    have hstate : pool.nState ≠ .signing := by rw [hqueue]; decide
    exact h.moved hwell hstate hstate rfl rfl
  | complete _ hqueue => exact h.moved hwell (by rw [hqueue]; decide) (fun hno => by cases hno) rfl rfl
  | enter node nVersion vecTxIn vecTxOut txCollateral _ haccepts =>
    have hstate : pool.nState ≠ .signing := by
      intro hsigning
      rcases haccepts.state h.wellFormed with hstate | hstate <;> exact absurd (hstate.symm.trans hsigning) (by decide)
    refine Verified.checkPool ⟨haccepts.wellFormed h.wellFormed, fun hno => absurd hno hstate, fun hno => absurd hno hstate,
      fun _ => ⟨(h.early hstate).1, fun t ht => ?_⟩⟩ node
    change t ∈ (pool.vecEntries ++ [CPrivateSendEntry.read vecTxIn vecTxOut txCollateral]).flatMap (·.vecTxPSIn) at ht
    rw [List.flatMap_append, List.flatMap_singleton] at ht
    rcases List.mem_append.1 ht with ht | ht
    · exact (h.early hstate).2 t ht
    · obtain ⟨txin, -, rfl⟩ := List.mem_map.1 ht
      rfl
  | sign node nVersion vecTxIn hreads hversion =>
    exact (h.addScriptSigs hblank (hgood hreads hversion)).1.checkPool node
  | refuse node nVersion vecTxIn hreads hversion => exact (h.addScriptSigs hblank (hgood hreads hversion)).1

/-- What a step stores passes for the coins, and so does the final transaction once all have signed: in the state behind
    the step, and in the one that is committed. -/
structure VerifiedStep (env : Env) (spent : COutPoint → CScript) (pool : CPrivatesendPool) (e : Event)
    (pool' : CPrivatesendPool) : Prop where
  stored : ∀ node nVersion vecTxIn, e = .signFinalTx node nVersion vecTxIn → reads env node = true →
    minPrivatesendPeerProtoVersion ≤ nVersion →
    Along (signStep env) (fun _ txin pool' => Stored env spent txin pool') pool vecTxIn
  complete : pool'.isSignaturesComplete = true → AllPass env spent pool'
  committed : ∀ p, .commitFinalTransaction p ∈ (handle env pool e).2 → AllPass env spent p

theorem Verified.stepped {e : Event} (h : Verified env spent pool) (hblank : BlanksScripts env)
    (hgood : GoodStep env spent pool e) :
    Verified env spent (handle env pool e).1 ∧ VerifiedStep env spent pool e (handle env pool e).1 := by
  have hnext := h.handled hblank hgood
  refine ⟨hnext, fun node nVersion vecTxIn he hreads hversion => ?_, hnext.allPass, fun p hp => ?_⟩
  · subst he
    exact (h.addScriptSigs hblank (hgood hreads hversion)).2
  · obtain ⟨hsigning, hcomplete, ⟨node, nVersion, vecTxIn, rfl, hreads, hversion, rfl⟩ | ⟨_, _, _, _, _, haccepts, rfl⟩⟩ :=
      commit_cases e hp
    · exact (h.addScriptSigs hblank (hgood hreads hversion)).1.allPass hcomplete
    · rcases haccepts.state h.wellFormed with hstate | hstate <;> exact absurd (hstate.symm.trans hsigning) (by decide)

namespace Sample

/-- `VerifyScript` on pushes of small numbers: what is left is true. Other scripts fail. -/
def pushes : Env :=
  { net with
    verifyScript := fun scriptSig script _ _ =>
      !(scriptSig ++ script).isEmpty && (scriptSig ++ script).all fun opcode => 0x51 ≤ opcode && opcode ≤ 0x60 }

def openNode : Node := { node with getTransaction := fun hash => some ⟨[], [⟨1000010, [0x51]⟩], hash⟩ }

def signedSession (node : Node) (rand : Fin 999999) : List Event :=
  [.accept node 70000 8 (collateral 1) rand, .accept node 70000 8 (collateral 2) rand, .accept node 70000 8 (collateral 3) rand,
    .checkForCompleteQueue] ++
  [1, 2, 3].map (fun i => .vin node 70000 [⟨⟨100 + i, 0⟩, [], 0⟩] [⟨1000010, payTo⟩] (collateral i)) ++
  [1, 2, 3].map fun i => .signFinalTx node 70000 [⟨⟨100 + i, 0⟩, List.replicate i 0x51, 0⟩]

end Sample

instance {i : Nat} {f : CTxIn} : Decidable (Passes env spent pool i f) := inferInstanceAs (Decidable (_ = true))

instance : Decidable (Stored env spent txin pool) :=
  inferInstanceAs (Decidable (∃ p ∈ pool.finalMutableTransaction.vin.zipIdx, _))

theorem stored_of_along {vecTxIn : List CTxIn}
    (h : Along (signStep env) (fun _ txin pool' => Stored env spent txin pool') pool (txin :: vecTxIn))
    (htrue : (pool.addScriptSig env txin).2 = true) : Stored env spent txin (pool.addScriptSig env txin).1 := by
  have hstep : signStep env pool txin = some (pool.addScriptSig env txin).1 := by
    rw [signStep]
    cases heq : pool.addScriptSig env txin with
    | mk pool' done =>
      rw [heq] at htrue
      cases htrue
      rfl
  exact (h _ hstep).1

end Zumy.PrivateSend
