/-
  Zumy.Lib.Scan — a greedy scan that resumes at the place of its last find.

  `scan ps l` looks for the elements of `ps` in `l`, each one from the place of the one
  before it on, that place included: equal neighbours are found at one place.

  - `scan_iff`: the scan succeeds exactly when `ps` without its repeated neighbours is a
    sublist of `l`.
  - `sublist_of_scan`: with no repeated neighbours, `ps` itself is one.
  - `scan_append`: a list is found at the end of any list.
-/
import Mathlib.Data.List.Destutter

namespace Zumy.Lib

open List

variable {α : Type*} [DecidableEq α]

def scan : List α → List α → Bool
  | [], _ => true
  | p :: ps, l =>
    match l.dropWhile (· ≠ p) with
    | [] => false
    | o :: rest => scan ps (o :: rest)

theorem dropWhile_ne_eq_cons {p o : α} {l rest : List α} (h : l.dropWhile (· ≠ p) = o :: rest) : o = p := by
  induction l with
  | nil => cases h
  | cons a l ih =>
    by_cases ha : a = p
    · rw [dropWhile_cons_of_neg (by simpa using ha)] at h
      cases h
      exact ha
    · rw [dropWhile_cons_of_pos (by simpa using ha)] at h
      exact ih h

theorem cons_sublist_dropWhile_iff {p : α} {t l : List α} : p :: t <+ l.dropWhile (· ≠ p) ↔ p :: t <+ l := by
  induction l with
  | nil => simp
  | cons a l ih =>
    by_cases ha : a = p
    · simp [ha]
    · rw [List.dropWhile_cons_of_pos (by simpa using ha), ih]
      constructor
      · intro h
        exact h.cons a
      · intro h
        cases h with
        | cons _ h => exact h
        | cons_cons _ h => exact absurd rfl ha

theorem destutter'_eq_cons (a : α) (l : List α) : ∃ t, l.destutter' (· ≠ ·) a = a :: t := by
  induction l generalizing a with
  | nil => exact ⟨[], rfl⟩
  | cons b l ih =>
    by_cases hab : a ≠ b
    · exact ⟨_, List.destutter'_cons_pos l hab⟩
    · obtain ⟨t, ht⟩ := ih a
      exact ⟨t, by rw [List.destutter'_cons_neg l hab, ht]⟩

theorem scan_cons_of_nil {p : α} {l : List α} (ps : List α) (h : l.dropWhile (· ≠ p) = []) : scan (p :: ps) l = false := by
  rw [scan, h]

theorem scan_cons_of_cons {p o : α} {l rest : List α} (ps : List α) (h : l.dropWhile (· ≠ p) = o :: rest) :
    scan (p :: ps) l = scan ps (p :: rest) := by
  rw [scan, h, dropWhile_ne_eq_cons h]

/-- The induction is on the elements still to find; `p` is the last one found. -/
theorem scan_cons_iff (p : α) (ps l : List α) : scan (p :: ps) l = true ↔ ps.destutter' (· ≠ ·) p <+ l := by
  induction ps generalizing p l with
  | nil =>
    rw [destutter'_nil, ← cons_sublist_dropWhile_iff]
    cases h : l.dropWhile (· ≠ p) with
    | nil => simp [scan_cons_of_nil [] h]
    | cons o rest =>
      rw [scan_cons_of_cons [] h, dropWhile_ne_eq_cons h]
      simp [scan]
  | cons q ps ih =>
    obtain ⟨t, ht⟩ := destutter'_eq_cons q ps
    by_cases hpq : p = q
    · subst hpq
      rw [destutter'_cons_neg ps (by simp), ht, ← cons_sublist_dropWhile_iff]
      cases h : l.dropWhile (· ≠ p) with
      | nil => simp [scan_cons_of_nil _ h]
      | cons o rest => rw [scan_cons_of_cons _ h, ih, ht, dropWhile_ne_eq_cons h]
    · rw [destutter'_cons_pos ps hpq, ← cons_sublist_dropWhile_iff]
      cases h : l.dropWhile (· ≠ p) with
      | nil => simp [scan_cons_of_nil _ h]
      | cons o rest =>
        rw [scan_cons_of_cons _ h, ih, ht, dropWhile_ne_eq_cons h, cons_sublist_cons]
        constructor
        · intro hsub
          cases hsub with
          | cons _ hsub => exact hsub
          | cons_cons _ hsub => exact absurd rfl hpq
        · intro hsub
          exact hsub.cons p

theorem scan_iff {ps l : List α} : scan ps l = true ↔ ps.destutter (· ≠ ·) <+ l := by
  cases ps with
  | nil => simp [scan]
  | cons p ps => rw [List.destutter_cons', scan_cons_iff]

theorem sublist_of_scan {ps l : List α} (hps : ps.IsChain (· ≠ ·)) (h : scan ps l = true) : ps <+ l := by
  rw [scan_iff, List.destutter_of_isChain _ ps hps] at h
  exact h

theorem scan_append (ps l : List α) : scan ps (l ++ ps) = true :=
  scan_iff.2 ((List.destutter_sublist _ ps).trans (List.sublist_append_right l ps))

theorem not_sublist_destutter {ps : List α} (hps : ¬ ps.IsChain (· ≠ ·)) : ¬ ps <+ ps.destutter (· ≠ ·) := by
  intro h
  have heq := h.antisymm (List.destutter_sublist _ ps)
  exact hps ((List.destutter_eq_self_iff _ ps).1 heq.symm)

end Zumy.Lib
