/-
  Zumy.Lib.Batch — batches of writes and erasures on a map from keys to values.

  `none` erases. A batch is applied in order, so the last write of a key counts
  (`applyBatch_apply`).

  `undo_iff`: a second batch of the same keys in the other order gives the map back just
  where its value for the first touch of each key is what the map had there.
-/
import Mathlib.Logic.Function.Basic
import Mathlib.Data.List.Basic

namespace Zumy.Lib

variable {κ ν : Type*} [DecidableEq κ]

def applyBatch (batch : List (κ × Option ν)) (m : κ → Option ν) : κ → Option ν :=
  batch.foldl (fun m it => Function.update m it.1 it.2) m

def firstOf (k : κ) (batch : List (κ × Option ν)) : Option (κ × Option ν) := batch.find? fun it => decide (it.1 = k)

variable {batch back : List (κ × Option ν)} {m : κ → Option ν} {k : κ}

/-- What a batch in the other order leaves of a key: the first write of the batch. -/
theorem applyBatch_reverse_apply (batch : List (κ × Option ν)) (m : κ → Option ν) (k : κ) :
    applyBatch batch.reverse m k = (firstOf k batch).elim (m k) Prod.snd := by
  unfold applyBatch
  rw [List.foldl_reverse]
  induction batch with
  | nil => rfl
  | cons it batch ih =>
    rw [List.foldr_cons, firstOf, List.find?_cons]
    by_cases hk : it.1 = k
    · subst hk
      simp
    · rw [Function.update_of_ne (Ne.symm hk), decide_eq_false hk]
      exact ih

theorem applyBatch_apply (batch : List (κ × Option ν)) (m : κ → Option ν) (k : κ) :
    applyBatch batch m k = (firstOf k batch.reverse).elim (m k) Prod.snd := by
  rw [← applyBatch_reverse_apply, List.reverse_reverse]

theorem firstOf_isSome (k : κ) (batch : List (κ × Option ν)) : (firstOf k batch).isSome = true ↔ k ∈ batch.map Prod.fst := by
  rw [firstOf, List.find?_isSome, List.mem_map]
  simp

theorem firstOf_eq_none (k : κ) (batch : List (κ × Option ν)) : firstOf k batch = none ↔ k ∉ batch.map Prod.fst := by
  rw [← firstOf_isSome]
  cases firstOf k batch <;> simp

theorem applyBatch_of_not_mem (h : k ∉ batch.map Prod.fst) : applyBatch batch m k = m k := by
  have hnone : firstOf k batch.reverse = none := (firstOf_eq_none k _).2 (by simpa using h)
  rw [applyBatch_apply, hnone]
  rfl

/-- The map is as before a batch where the last write of each key is what it had. -/
theorem applyBatch_eq_self_iff : applyBatch batch m = m ↔ ∀ k it, firstOf k batch.reverse = some it → m k = it.2 := by
  constructor
  · intro h k it hit
    have hk := congrFun h k
    rw [applyBatch_apply, hit] at hk
    exact hk.symm
  · intro h
    funext k
    rw [applyBatch_apply]
    cases hit : firstOf k batch.reverse with
    | none => rfl
    | some it => exact (h k it hit).symm

/-- A batch of the same keys in the other order undoes the first just where the value it gives
    back for the first touch of each key is what was there. -/
theorem undo_iff (hkeys : back.map Prod.fst = batch.map Prod.fst) :
    applyBatch back.reverse (applyBatch batch m) = m ↔ ∀ k it, firstOf k back = some it → m k = it.2 := by
  constructor
  · intro h k it hit
    have hk := congrFun h k
    rw [applyBatch_reverse_apply, hit] at hk
    exact hk.symm
  · intro h
    funext k
    rw [applyBatch_reverse_apply]
    cases hit : firstOf k back with
    | none =>
      have hmem := (firstOf_eq_none k back).1 hit
      rw [hkeys] at hmem
      exact applyBatch_of_not_mem hmem
    | some it => exact (h k it hit).symm

end Zumy.Lib
