/-
  Zumy.Lib.Simulation — two computations that may fail, on states that are related.

  `Simulates R x y`: both fail, or both succeed in states related by `R`, with one answer.

  - `Simulates.bind`: what is simulated step by step is simulated.
  - `Simulates.of_left`, `Simulates.of_right`: a success of one side is a success of the other.
-/
import Mathlib.Logic.Basic

namespace Zumy.Lib

variable {σ τ α β : Type*} {R R' : σ → τ → Prop}

def Simulates (R : σ → τ → Prop) : Option (σ × α) → Option (τ × α) → Prop
  | none, none => True
  | some (s, a), some (t, b) => R s t ∧ a = b
  | _, _ => False

variable {x : Option (σ × α)} {y : Option (τ × α)}

theorem Simulates.bind {f : σ × α → Option (σ × β)} {g : τ × α → Option (τ × β)} (h : Simulates R x y)
    (hfg : ∀ s t a, R s t → Simulates R' (f (s, a)) (g (t, a))) : Simulates R' (x.bind f) (y.bind g) := by
  cases x with
  | none =>
    cases y with
    | none => trivial
    | some q => exact h.elim
  | some p =>
    cases y with
    | none => exact h.elim
    | some q =>
      obtain ⟨s, a⟩ := p
      obtain ⟨t, b⟩ := q
      obtain ⟨hR, rfl⟩ := h
      exact hfg s t a hR

theorem Simulates.of_left {s : σ} {a : α} (h : Simulates R x y) (hx : x = some (s, a)) : ∃ t, y = some (t, a) ∧ R s t := by
  subst hx
  cases y with
  | none => exact h.elim
  | some q =>
    obtain ⟨t, b⟩ := q
    obtain ⟨hR, rfl⟩ := h
    exact ⟨t, rfl, hR⟩

theorem Simulates.of_right {t : τ} {a : α} (h : Simulates R x y) (hy : y = some (t, a)) : ∃ s, x = some (s, a) ∧ R s t := by
  subst hy
  cases x with
  | none => exact h.elim
  | some p =>
    obtain ⟨s, b⟩ := p
    obtain ⟨hR, rfl⟩ := h
    exact ⟨s, rfl, hR⟩

def kept (x : Option (Bool × σ × α)) : Option (σ × α) := x.bind fun r => if r.1 then some r.2 else none

theorem kept_eq_some {x : Option (Bool × σ × α)} {r : σ × α} : kept x = some r ↔ x = some (true, r) := by
  unfold kept
  cases x with
  | none => simp
  | some p =>
    obtain ⟨b, p⟩ := p
    cases b <;> simp

end Zumy.Lib
