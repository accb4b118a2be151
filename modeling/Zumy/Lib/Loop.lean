/-
  Zumy.Lib.Loop — a loop as one turn after another.

  A turn goes on with a new state or leaves with a result. `loop turn n s` runs at most `n`
  turns: `none` means that they were not enough.

  - `ends_of_measure`: a loop whose turns lower a measure ends.
  - `not_ends_of_stays`: one that keeps to states whose turns all go on does not.
-/
import Mathlib.Logic.Relation

namespace Zumy.Lib

inductive Turn (σ ρ : Type*) where
  | again (s : σ)
  | done (r : ρ)

def loop {σ ρ : Type*} (turn : σ → Turn σ ρ) : Nat → σ → Option ρ
  | 0, _ => none
  | n + 1, s =>
    match turn s with
    | .again s' => loop turn n s'
    | .done r => some r

variable {σ ρ : Type*} {turn : σ → Turn σ ρ} {s s' t : σ} {r r' : ρ} {n m : Nat}

/-- The loop comes to the state `t`. -/
def Comes (turn : σ → Turn σ ρ) : σ → σ → Prop := Relation.ReflTransGen fun s s' => turn s = .again s'

def Ends (turn : σ → Turn σ ρ) (s : σ) : Prop := ∃ n, (loop turn n s).isSome

theorem loop_again (h : turn s = .again s') : loop turn (n + 1) s = loop turn n s' := by
  rw [loop, h]

theorem loop_done (h : turn s = .done r) : loop turn (n + 1) s = some r := by
  rw [loop, h]

theorem comes_keeps {I : σ → Prop} (hcomes : Comes turn s t) (hs : I s) (hturn : ∀ s s', I s → turn s = .again s' → I s') :
    I t := by
  induction hcomes with
  | refl => exact hs
  | tail _ hlast ih => exact hturn _ _ ih hlast

theorem loop_isSome_of_measure {I : σ → Prop} (μ : σ → Nat)
    (hturn : ∀ s s', I s → turn s = .again s' → I s' ∧ μ s' < μ s) (hs : I s) (hn : μ s < n) : (loop turn n s).isSome := by
  induction n generalizing s with
  | zero => omega
  | succ n ih =>
    cases hnext : turn s with
    | again s' =>
      obtain ⟨hs', hlt⟩ := hturn s s' hs hnext
      rw [loop_again hnext]
      exact ih hs' (by omega)
    | done r =>
      rw [loop_done hnext]
      rfl

theorem ends_of_measure {I : σ → Prop} (μ : σ → Nat) (hturn : ∀ s s', I s → turn s = .again s' → I s' ∧ μ s' < μ s)
    (hs : I s) : Ends turn s :=
  ⟨μ s + 1, loop_isSome_of_measure μ hturn hs (Nat.lt_succ_self _)⟩

theorem loop_eq_none_of_stays {P : σ → Prop} (hturn : ∀ s, P s → ∃ s', turn s = .again s' ∧ P s') (hs : P s) :
    loop turn n s = none := by
  induction n generalizing s with
  | zero => rfl
  | succ n ih =>
    obtain ⟨s', hnext, hs'⟩ := hturn s hs
    rw [loop_again hnext]
    exact ih hs'

theorem not_ends_of_stays {P : σ → Prop} (hturn : ∀ s, P s → ∃ s', turn s = .again s' ∧ P s') (hs : P s) :
    ¬ Ends turn s := by
  intro hends
  obtain ⟨n, hn⟩ := hends
  rw [loop_eq_none_of_stays hturn hs] at hn
  cases hn

theorem loop_spec {I : σ → Prop} {Q : ρ → Prop} (hagain : ∀ s s', I s → turn s = .again s' → I s')
    (hdone : ∀ s r, I s → turn s = .done r → Q r) (hs : I s) (hloop : loop turn n s = some r) : Q r := by
  induction n generalizing s with
  | zero => cases hloop
  | succ n ih =>
    cases hturn : turn s with
    | again s' =>
      rw [loop_again hturn] at hloop
      exact ih (hagain s s' hs hturn) hloop
    | done r' =>
      rw [loop_done hturn, Option.some.injEq] at hloop
      subst hloop
      exact hdone s r' hs hturn

end Zumy.Lib
