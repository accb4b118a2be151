/-
  Zumy.Lib.Run — runs of a partial step function.

  `step s e = none` is a step that is not defined (undefined behaviour in the source).
  `run step s es` applies the events in order and stops at the first undefined step.
  `Meets step ok s es`: in the run of `es` from `s`, the state before every step
  satisfies the condition `ok` on that step's event; nothing is asked after a step
  that is undefined.

  `Along step P s es`: every step of the run satisfies `P`, which also sees the state
  after the step.

  - `run_inv`: what every step preserves, a run preserves.
  - `run_isSome_of_meets`: such a run is defined when each of its steps is.
  - `along_iff_meets`: where a step's property is its condition, so is a run's.
  - `run_total`: a run of total steps is a fold.
-/
import Mathlib.Logic.Relation

namespace Zumy.Lib

variable {σ ε : Type*}

def run (step : σ → ε → Option σ) (s : σ) : List ε → Option σ
  | [] => some s
  | e :: es => (step s e).bind fun s' => run step s' es

def Meets (step : σ → ε → Option σ) (ok : σ → ε → Prop) (s : σ) : List ε → Prop
  | [] => True
  | e :: es => ok s e ∧ ∀ s', step s e = some s' → Meets step ok s' es

def Along (step : σ → ε → Option σ) (P : σ → ε → σ → Prop) (s : σ) : List ε → Prop
  | [] => True
  | e :: es => ∀ s', step s e = some s' → P s e s' ∧ Along step P s' es

variable {step : σ → ε → Option σ} {ok : σ → ε → Prop} {s s' : σ} {e : ε} {es es' : List ε}

@[simp] theorem run_nil : run step s [] = some s := rfl

@[simp] theorem run_cons : run step s (e :: es) = (step s e).bind fun s' => run step s' es := rfl

theorem run_cons_some (h : run step s (e :: es) = some s') : ∃ t, step s e = some t ∧ run step t es = some s' := by
  simpa [Option.bind_eq_some_iff] using h

theorem run_append : run step s (es ++ es') = (run step s es).bind fun t => run step t es' := by
  induction es generalizing s with
  | nil => rfl
  | cons e es ih =>
    simp only [List.cons_append, run_cons, Option.bind_assoc]
    exact congrArg _ (funext fun t => ih)

@[simp] theorem meets_nil : Meets step ok s [] := trivial

theorem meets_cons : Meets step ok s (e :: es) ↔ ok s e ∧ ∀ s', step s e = some s' → Meets step ok s' es := Iff.rfl

theorem meets_append : Meets step ok s (es ++ es') ↔ Meets step ok s es ∧ ∀ t, run step s es = some t → Meets step ok t es' := by
  induction es generalizing s with
  | nil => simp
  | cons e es ih =>
    simp only [List.cons_append, meets_cons, ih, run_cons, Option.bind_eq_some_iff]
    constructor
    · intro h
      refine ⟨⟨h.1, fun t ht => (h.2 t ht).1⟩, fun u hu => ?_⟩
      obtain ⟨t, ht, hu⟩ := hu
      exact (h.2 t ht).2 u hu
    · intro h
      exact ⟨h.1.1, fun t ht => ⟨h.1.2 t ht, fun u hu => h.2 u ⟨t, ht, hu⟩⟩⟩

theorem along_cons {P : σ → ε → σ → Prop} :
    Along step P s (e :: es) ↔ ∀ s', step s e = some s' → P s e s' ∧ Along step P s' es := Iff.rfl

instance decidableMeets [∀ s e, Decidable (ok s e)] (s : σ) : (es : List ε) → Decidable (Meets step ok s es)
  | [] => .isTrue trivial
  | e :: es =>
    match h : step s e with
    | none => decidable_of_iff (ok s e) (by simp [meets_cons, h])
    | some t =>
      have := decidableMeets t es
      decidable_of_iff (ok s e ∧ Meets step ok t es) (by simp [meets_cons, h])

theorem Along.of_run {P : σ → ε → σ → Prop} {t t' : σ} (h : Along step P s (es ++ e :: es')) (hrun : run step s es = some t)
    (hstep : step t e = some t') : P t e t' := by
  induction es generalizing s with
  | nil =>
    cases hrun
    exact (h t' hstep).1
  | cons e' es ih =>
    obtain ⟨u, hu, hrest⟩ := run_cons_some hrun
    exact ih (h u hu).2 hrest

theorem Meets.and_mem {p : ε → Prop} (h : Meets step ok s es) (hp : ∀ e ∈ es, p e) :
    Meets step (fun s e => ok s e ∧ p e) s es := by
  induction es generalizing s with
  | nil => trivial
  | cons e es ih =>
    exact ⟨⟨h.1, hp e (by simp)⟩, fun t ht => ih (h.2 t ht) fun e' he' => hp e' (by simp [he'])⟩

theorem meets_of_forall (hok : ∀ s e, ok s e) : Meets step ok s es := by
  induction es generalizing s with
  | nil => trivial
  | cons e es ih => exact ⟨hok s e, fun _ _ => ih⟩

theorem meets_of_run_isSome (hok : ∀ s e t, step s e = some t → ok s e) (h : (run step s es).isSome) : Meets step ok s es := by
  induction es generalizing s with
  | nil => trivial
  | cons e es ih =>
    rw [run_cons] at h
    cases hstep : step s e with
    | none =>
      rw [hstep] at h
      cases h
    | some t =>
      rw [hstep, Option.bind_some] at h
      refine ⟨hok s e t hstep, fun t' ht' => ?_⟩
      cases hstep.symm.trans ht'
      exact ih h

/-- The induction is on the events: one that is skipped leaves the state as it is. -/
theorem run_filter_of_meets {skip : ε → Bool} (hskip : ∀ s e, skip e = true → ok s e → step s e = some s)
    (hm : Meets step ok s es) : run step s es = run step s (es.filter fun e => !skip e) := by
  induction es generalizing s with
  | nil => rfl
  | cons e es ih =>
    cases hs : skip e with
    | true =>
      have hstep := hskip s e hs hm.1
      simp only [run_cons, hstep, Option.bind_some, List.filter_cons, hs, Bool.not_true, Bool.false_eq_true, if_false]
      exact ih (hm.2 s hstep)
    | false =>
      simp only [run_cons, List.filter_cons, hs, Bool.not_false, if_true]
      cases hstep : step s e with
      | none => rfl
      | some t => exact ih (hm.2 t hstep)

/-! ## Total steps -/

section
variable {next : σ → ε → σ} (htotal : ∀ s e, step s e = some (next s e))
include htotal

theorem run_total (s : σ) (es : List ε) : run step s es = some (es.foldl next s) := by
  induction es generalizing s with
  | nil => rfl
  | cons e es ih => rw [run_cons, htotal, Option.bind_some, ih, List.foldl_cons]

theorem meets_cons_total : Meets step ok s (e :: es) ↔ ok s e ∧ Meets step ok (next s e) es := by
  simp [meets_cons, htotal]

theorem along_cons_total {P : σ → ε → σ → Prop} : Along step P s (e :: es) ↔ P s e (next s e) ∧ Along step P (next s e) es := by
  simp [along_cons, htotal]

end

/-! ## Invariants of a run -/

/-- The run lemma: the induction is on the events, the invariant carries over each step. -/
theorem run_inv_of_meets (I : σ → Prop) (hstep : ∀ s e s', I s → ok s e → step s e = some s' → I s')
    (hm : Meets step ok s es) (hs : I s) (h : run step s es = some s') : I s' := by
  induction es generalizing s with
  | nil => cases h; exact hs
  | cons e es ih =>
    obtain ⟨t, ht, hrun⟩ := run_cons_some h
    exact ih (hm.2 t ht) (hstep s e t hs hm.1 ht) hrun

theorem run_inv (I : σ → Prop) (hstep : ∀ s e s', I s → step s e = some s' → I s')
    (hs : I s) (h : run step s es = some s') : I s' := by
  have hm : Meets step (fun _ _ => True) s es := meets_of_forall fun _ _ => trivial
  exact run_inv_of_meets I (fun s e s' hi _ hst => hstep s e s' hi hst) hm hs h

theorem run_inv_of_mem {p : ε → Prop} (I : σ → Prop) (hstep : ∀ s e s', I s → p e → step s e = some s' → I s')
    (hp : ∀ e ∈ es, p e) (hs : I s) (h : run step s es = some s') : I s' := by
  have hm : Meets step (fun _ _ => True) s es := meets_of_forall fun _ _ => trivial
  exact run_inv_of_meets I (fun s e s' hi he hst => hstep s e s' hi he.2 hst) (hm.and_mem hp) hs h

theorem run_isSome_of_meets (I : σ → Prop) (hstep : ∀ s e s', I s → ok s e → step s e = some s' → I s')
    (hdef : ∀ s e, I s → ok s e → (step s e).isSome) (hm : Meets step ok s es) (hs : I s) :
    (run step s es).isSome := by
  induction es generalizing s with
  | nil => rfl
  | cons e es ih =>
    obtain ⟨t, ht⟩ := Option.isSome_iff_exists.1 (hdef s e hs hm.1)
    simpa [run_cons, ht] using ih (hm.2 t ht) (hstep s e t hs hm.1 ht)

theorem along_iff_meets {P : σ → ε → σ → Prop} (hP : ∀ s e s', step s e = some s' → (P s e s' ↔ ok s e))
    (hdef : ∀ s e, step s e = none → ok s e) : Along step P s es ↔ Meets step ok s es := by
  induction es generalizing s with
  | nil => exact Iff.rfl
  | cons e es ih =>
    constructor
    · intro h
      refine ⟨?_, fun s' hs' => ih.1 (h s' hs').2⟩
      cases hs : step s e with
      | none => exact hdef s e hs
      | some s' => exact (hP s e s' hs).1 (h s' hs).1
    · intro h s' hs'
      exact ⟨(hP s e s' hs').2 h.1, ih.2 (h.2 s' hs')⟩

/-- What holds of every step from a state that satisfies the invariant, holds along the run. -/
theorem along_of_meets {P : σ → ε → σ → Prop} (I : σ → Prop)
    (hstep : ∀ s e s', I s → ok s e → step s e = some s' → I s' ∧ P s e s') (hm : Meets step ok s es) (hs : I s) :
    Along step P s es := by
  induction es generalizing s with
  | nil => trivial
  | cons e es ih =>
    intro s' hs'
    obtain ⟨hi, hp⟩ := hstep s e s' hs hm.1 hs'
    exact ⟨hp, ih (hm.2 s' hs') hi⟩

/-- Where the condition is also needed for the step's property, a run is defined and keeps the
    property just when its steps all meet their conditions. -/
theorem defined_along_iff_meets {P : σ → ε → σ → Prop} (I : σ → Prop)
    (hdef : ∀ s e, I s → ok s e → (step s e).isSome)
    (hstep : ∀ s e s', I s → ok s e → step s e = some s' → I s' ∧ P s e s')
    (hneeds : ∀ s e s', I s → step s e = some s' → P s e s' → ok s e) (hs : I s) :
    ((run step s es).isSome ∧ Along step P s es) ↔ Meets step ok s es := by
  constructor
  · intro h
    induction es generalizing s with
    | nil => trivial
    | cons e es ih =>
      obtain ⟨s₁, hs₁⟩ := Option.isSome_iff_exists.1 h.1
      obtain ⟨t, ht, hrun⟩ := run_cons_some hs₁
      obtain ⟨hp, halong⟩ := h.2 t ht
      have hok := hneeds s e t hs ht hp
      refine ⟨hok, fun t' ht' => ?_⟩
      cases ht.symm.trans ht'
      exact ih (hstep s e t hs hok ht).1 ⟨by rw [hrun]; rfl, halong⟩
  · intro hm
    exact ⟨run_isSome_of_meets I (fun s e s' hi hok hst => (hstep s e s' hi hok hst).1) hdef hm hs, along_of_meets I hstep hm hs⟩

/-- Of the runs that meet one condition, those keep the property that meet the other one too. -/
theorem meets_and_along_iff {ok' : σ → ε → Prop} {P : σ → ε → σ → Prop} (I : σ → Prop)
    (hstep : ∀ s e s', I s → ok s e → ok' s e → step s e = some s' → I s' ∧ P s e s')
    (hneeds : ∀ s e s', I s → ok s e → step s e = some s' → P s e s' → ok' s e)
    (hundef : ∀ s e, ok s e → step s e = none → ok' s e) (hs : I s) :
    Meets step ok s es ∧ Along step P s es ↔ Meets step (fun s e => ok s e ∧ ok' s e) s es := by
  constructor
  · intro h
    obtain ⟨hm, ha⟩ := h
    induction es generalizing s with
    | nil => trivial
    | cons e es ih =>
      cases ht : step s e with
      | none =>
        refine ⟨⟨hm.1, hundef s e hm.1 ht⟩, fun t h => ?_⟩
        cases ht.symm.trans h
      | some t =>
        obtain ⟨hp, hrest⟩ := ha t ht
        have hok' := hneeds s e t hs hm.1 ht hp
        refine ⟨⟨hm.1, hok'⟩, fun t' h => ?_⟩
        cases ht.symm.trans h
        exact ih (hstep s e t hs hm.1 hok' ht).1 (hm.2 t ht) hrest
  · intro hm
    have hfirst : Meets step ok s es := by
      clear hs
      induction es generalizing s with
      | nil => trivial
      | cons e es ih => exact ⟨hm.1.1, fun t ht => ih (hm.2 t ht)⟩
    exact ⟨hfirst, along_of_meets I (fun s e s' hi hok hst => hstep s e s' hi hok.1 hok.2 hst) hm hs⟩

/-- Where a step is defined just under its condition, so is a run; and along it, as far as it is
    defined, each step satisfies what a step from the invariant does. -/
theorem along_and_isSome_iff_meets {P : σ → ε → σ → Prop} (I : σ → Prop)
    (hdef : ∀ s e, I s → ((step s e).isSome ↔ ok s e))
    (hstep : ∀ s e s', I s → ok s e → step s e = some s' → I s' ∧ P s e s') (hs : I s) :
    Along step P s es ∧ ((run step s es).isSome ↔ Meets step ok s es) := by
  induction es generalizing s with
  | nil => exact ⟨trivial, by simp⟩
  | cons e es ih =>
    cases ht : step s e with
    | none =>
      have hnot : ¬ ok s e := by
        rw [← hdef s e hs, ht]
        nofun
      refine ⟨fun t h => ?_, ?_⟩
      · cases ht.symm.trans h
      · simp [run_cons, ht, meets_cons, hnot]
    | some t =>
      have hok : ok s e := by
        rw [← hdef s e hs, ht]
        rfl
      obtain ⟨hi, hp⟩ := hstep s e t hs hok ht
      obtain ⟨halong, hsome⟩ := ih hi
      refine ⟨fun t' h => ?_, ?_⟩
      · cases ht.symm.trans h
        exact ⟨hp, halong⟩
      · simp only [run_cons, ht, Option.bind_some, meets_cons, hok, true_and, Option.some.injEq, forall_eq']
        exact hsome

theorem along_iff_meets_total {next : σ → ε → σ} (htotal : ∀ s e, step s e = some (next s e)) {P : σ → ε → σ → Prop}
    (I : σ → Prop) (hstep : ∀ s e, I s → ok s e → I (next s e) ∧ P s e (next s e))
    (hneeds : ∀ s e, I s → P s e (next s e) → ok s e) (hs : I s) :
    Along step P s es ↔ Meets step ok s es := by
  have hdef : (run step s es).isSome := by
    rw [run_total htotal]
    rfl
  rw [← defined_along_iff_meets I (fun s e _ _ => by rw [htotal]; rfl) ?_ ?_ hs, and_iff_right hdef]
  · intro s e s' hi hok hst
    cases (htotal s e).symm.trans hst
    exact hstep s e hi hok
  · intro s e s' hi hst hp
    cases (htotal s e).symm.trans hst
    exact hneeds s e hi hp

theorem run_rel {R : σ → σ → Prop} (hstep : ∀ s e s', ok s e → step s e = some s' → Relation.ReflTransGen R s s')
    (hm : Meets step ok s es) (h : run step s es = some s') : Relation.ReflTransGen R s s' := by
  induction es generalizing s with
  | nil => cases h; exact .refl
  | cons e es ih =>
    obtain ⟨t, ht, hrun⟩ := run_cons_some h
    exact (hstep s e t hm.1 ht).trans (ih (hm.2 t ht) hrun)

theorem chain_inv {R : σ → σ → Prop} (I : σ → Prop) (hR : ∀ s s', I s → R s s' → I s')
    (h : Relation.ReflTransGen R s s') (hs : I s) : I s' := by
  induction h with
  | refl => exact hs
  | tail _ hlast ih => exact hR _ _ ih hlast

end Zumy.Lib
