/-
  Zumy.Lib.Ring — a buffer of `n` cells that is written round and round.

  `start` is the cell of the oldest element and `stop` the one written next. They are the same
  in an empty buffer and in a full one; `empty` tells which.

  - `sweep_eq`: the loop from `start` until it is back at `stop` meets them in this order.
-/
import Mathlib.Algebra.Order.Ring.Nat
import Mathlib.Data.List.Induction

namespace Zumy.Lib

structure Ring (α : Type*) (n : Nat) where
  cells : Fin n → α
  start : Fin n
  stop : Fin n
  empty : Bool

namespace Ring

variable {α β : Type*} {n : Nat} [NeZero n] {r : Ring α n} {i j k : Nat}

/-- The cell `i` steps behind the oldest one. -/
def cell (r : Ring α n) (i : Nat) : Fin n := Fin.ofNat n (r.start + i)

def count (r : Ring α n) : Nat :=
  if r.empty then 0 else if r.start < r.stop then r.stop - r.start else n - r.start + r.stop

def toList (r : Ring α n) : List α := (List.range r.count).map fun i => r.cells (r.cell i)

def push (r : Ring α n) (x : α) : Ring α n where
  cells := Function.update r.cells r.stop x
  -- the oldest element of a full buffer is overwritten
  start := if r.stop = r.start ∧ r.empty = false then r.start + 1 else r.start
  stop := r.stop + 1
  empty := false

/-- `do { acc = f(acc, cells[i]); i = (i + 1) % n; } while (i != stop)` -/
def sweep (f : β → α → β) (r : Ring α n) : Nat → Fin n → β → Option β
  | 0, _, _ => none
  | k + 1, i, acc => if i + 1 = r.stop then some (f acc (r.cells i)) else sweep f r k (i + 1) (f acc (r.cells i))

def Closed (r : Ring α n) : Prop := r.empty = true → r.start = r.stop

/-! ## Cells -/

theorem val_cell (hi : i ≤ n) : (r.cell i).val = if r.start + i < n then r.start + i else r.start + i - n := by
  have hstart := r.start.isLt
  show (r.start + i) % n = _
  split
  · next hlt => exact Nat.mod_eq_of_lt hlt
  · next hge => rw [Nat.mod_eq_sub_mod (by omega), Nat.mod_eq_of_lt (by omega)]

theorem val_succ (a : Fin n) : (a + 1).val = if a + 1 < n then a.val + 1 else 0 := by
  have ha := a.isLt
  show (a.val + 1 % n) % n = _
  rw [Nat.add_mod_mod]
  split
  · next hlt => exact Nat.mod_eq_of_lt hlt
  · next hge =>
    have hlast : a.val + 1 = n := by omega
    rw [hlast, Nat.mod_self]

theorem cell_zero : r.cell 0 = r.start := by
  ext
  have hstart := r.start.isLt
  rw [val_cell (Nat.zero_le n)]
  simp [hstart]

theorem cell_succ (hi : i < n) : r.cell i + 1 = r.cell (i + 1) := by
  ext
  have hstart := r.start.isLt
  rw [val_succ, val_cell hi.le, val_cell (Nat.succ_le_of_lt hi)]
  split <;> split <;> (try split) <;> omega

theorem cell_inj (hi : i < n) (hj : j < n) : r.cell i = r.cell j ↔ i = j := by
  have hstart := r.start.isLt
  rw [Fin.ext_iff, val_cell hi.le, val_cell hj.le]
  constructor
  · split <;> split <;> omega
  · rintro rfl
    rfl

omit [NeZero n] in
theorem count_le (r : Ring α n) : r.count ≤ n := by
  have hstart := r.start.isLt
  have hstop := r.stop.isLt
  unfold count
  split
  · omega
  · split
    · omega
    · next hle =>
      have : r.stop.val ≤ r.start.val := Fin.not_lt.1 hle
      omega

omit [NeZero n] in
theorem count_pos (h : r.empty = false) : 0 < r.count := by
  have hstart := r.start.isLt
  rw [count, if_neg (by simp [h])]
  split
  · next hlt =>
    have : r.start.val < r.stop.val := hlt
    omega
  · omega

theorem cell_count (h : r.Closed) : r.cell r.count = r.stop := by
  have hstart := r.start.isLt
  have hstop := r.stop.isLt
  ext
  rw [val_cell r.count_le]
  unfold count
  split
  · next hempty =>
    rw [h hempty]
    simp [hstop]
  · split
    · next hlt =>
      have : r.start.val < r.stop.val := hlt
      split <;> omega
    · split <;> omega

@[simp] theorem length_toList (r : Ring α n) : r.toList.length = r.count := by simp [toList]

theorem getElem?_toList (hi : i < r.count) : r.toList[i]? = some (r.cells (r.cell i)) := by
  simp [toList, hi]

/-! ## What a buffer has -/

theorem push_closed (r : Ring α n) (x : α) : (r.push x).Closed := fun h => (by cases h)

theorem full_iff (h : r.Closed) : r.stop = r.start ∧ r.empty = false ↔ r.count = n := by
  have hpos := NeZero.pos n
  have hstart := r.start.isLt
  constructor
  · rintro ⟨heq, hempty⟩
    have hnot : ¬ r.start < r.start := fun h => Nat.lt_irrefl _ (Fin.lt_def.1 h)
    rw [count, if_neg (by simp [hempty]), heq, if_neg hnot]
    omega
  · intro hcount
    have hempty : r.empty = false := by
      by_contra hne
      rw [count, if_pos (by simpa using hne)] at hcount
      omega
    have hend := cell_count h
    rw [hcount] at hend
    refine ⟨?_, hempty⟩
    rw [← hend]
    ext
    rw [val_cell le_rfl]
    split <;> omega

theorem count_push (h : r.Closed) (x : α) : (r.push x).count = min (r.count + 1) n := by
  have hpos := NeZero.pos n
  have hstart := r.start.isLt
  have hle := r.count_le
  have hend := congrArg Fin.val (cell_count h)
  rw [val_cell hle] at hend
  have hstop : (r.push x).stop.val = if r.stop.val + 1 < n then r.stop.val + 1 else 0 := val_succ r.stop
  rw [count, if_neg (by simp [push])]
  simp only [Fin.lt_def, hstop]
  by_cases hfull : r.count = n
  · have hstart' : (r.push x).start.val = if r.start.val + 1 < n then r.start.val + 1 else 0 := by
      rw [← val_succ r.start]
      simp only [push, if_pos ((full_iff h).2 hfull)]
    rw [hstart']
    split at hend <;> split <;> split <;> split <;> omega
  · have hstart' : (r.push x).start.val = r.start.val := by
      simp only [push, if_neg (mt (full_iff h).1 hfull)]
    rw [hstart']
    split at hend <;> split <;> split <;> omega

theorem toList_push (h : r.Closed) (x : α) : (r.push x).toList = (r.toList ++ [x]).drop (r.count + 1 - n) := by
  have hle := r.count_le
  have hcount := count_push h x
  have hend := cell_count h
  apply List.ext_getElem?
  intro i
  rw [List.getElem?_drop]
  by_cases hi : i < (r.push x).count
  · -- the new buffer's cells are those of the old one, one on where it was full
    have hcell : (r.push x).cell i = r.cell (r.count + 1 - n + i) := by
      by_cases hfull : r.count = n
      · have hstart : (r.push x).start = r.cell 1 := by
          rw [← cell_succ (NeZero.pos n), cell_zero]
          simp only [push, if_pos ((full_iff h).2 hfull)]
        ext
        rw [val_cell (by omega), hstart, val_cell (by have := NeZero.pos n; omega), val_cell (by omega)]
        have := r.start.isLt
        split <;> split <;> split <;> omega
      · have hstart : (r.push x).start = r.start := by
          simp only [push, if_neg (mt (full_iff h).1 hfull)]
        ext
        rw [val_cell (by omega), hstart, val_cell (by omega)]
        have hskip : r.count + 1 - n + i = i := by omega
        rw [hskip]
    rw [getElem?_toList hi, hcell]
    show some (Function.update r.cells r.stop x _) = _
    rw [Function.update_apply]
    by_cases hlast : r.count + 1 - n + i = r.count
    · rw [hlast, hend, if_pos rfl, List.getElem?_append_right (by simp)]
      simp
    · have hne : ¬ r.cell (r.count + 1 - n + i) = r.stop := by
        rw [← hend]
        by_cases hfull : r.count = n
        · intro heq
          have hzero : r.cell r.count = r.cell 0 := by
            rw [hend, cell_zero, ((full_iff h).2 hfull).1]
          rw [hzero, cell_inj (by omega) (NeZero.pos n)] at heq
          omega
        · rw [cell_inj (by omega) (by omega)]
          exact hlast
      rw [if_neg hne, List.getElem?_append_left (by simp; omega), getElem?_toList (by omega)]
  · rw [List.getElem?_eq_none (by simp; omega), List.getElem?_eq_none (by simp; omega)]

theorem toList_foldl_push (h : r.Closed) (hempty : r.empty = true) (xs : List α) :
    (xs.foldl push r).Closed ∧ (xs.foldl push r).toList = xs.drop (xs.length - n) := by
  induction xs using List.reverseRecOn with
  | nil =>
    have hcount : r.toList.length = 0 := by rw [length_toList, count, if_pos hempty]
    rw [List.drop_nil]
    exact ⟨h, List.eq_nil_of_length_eq_zero hcount⟩
  | append_singleton xs x ih =>
    obtain ⟨hclosed, hlist⟩ := ih
    rw [List.foldl_append, List.foldl_cons, List.foldl_nil]
    refine ⟨push_closed _ x, ?_⟩
    have hcount : (xs.foldl push r).count = min xs.length n := by
      rw [← length_toList, hlist, List.length_drop]
      omega
    rw [toList_push hclosed, hlist, hcount, ← List.drop_append_of_le_length (by omega), List.drop_drop]
    congr 1
    rw [List.length_append, List.length_singleton]
    omega

/-! ## Sweeping over it -/

theorem sweep_eq (hempty : r.empty = false) (f : β → α → β) (acc : β) :
    r.sweep f n r.start acc = some (r.toList.foldl f acc) := by
  have hclosed : r.Closed := fun h => absurd h (by simp [hempty])
  have hle := r.count_le
  have hfrom (k j : Nat) (hj : j < r.count) (hk : r.count ≤ j + k) (acc : β) :
      r.sweep f k (r.cell j) acc = some ((r.toList.drop j).foldl f acc) := by
    induction k generalizing j acc with
    | zero => omega
    | succ k ih =>
      have hdrop : r.toList.drop j = r.cells (r.cell j) :: r.toList.drop (j + 1) :=
        List.drop_eq_getElem?_toList_append.trans (by rw [getElem?_toList hj]; rfl)
      rw [sweep, cell_succ (by omega), ← cell_count hclosed, hdrop, List.foldl_cons]
      by_cases hlast : j + 1 = r.count
      · rw [hlast, if_pos rfl, List.drop_eq_nil_of_le (by simp), List.foldl_nil]
      · have hne : ¬ r.cell (j + 1) = r.cell r.count := by
          intro heq
          rcases Nat.lt_or_eq_of_le hle with hlt | hfull
          · exact hlast ((cell_inj (by omega) hlt).1 heq)
          · have hzero : r.cell r.count = r.cell 0 := by
              rw [cell_count hclosed, cell_zero, ((full_iff hclosed).2 hfull).1]
            rw [hzero, cell_inj (by omega) (by omega)] at heq
            omega
        rw [if_neg hne]
        exact ih (j + 1) (by omega) (by omega) _
  have hstart := hfrom n 0 (count_pos hempty) (by omega) acc
  rwa [cell_zero, List.drop_zero] at hstart

end Ring

end Zumy.Lib
