/-
  Zumy.Lib.Median — the median of a list of numbers: the upper one of an even number.

  It is at least `m` just when enough entries are (`le_median_iff`), so a median over a window
  that slides does not fall when every new entry is above it (`median_le_of_slide`), and no more
  than half of the entries lie on either side of it (`isMedian_median`).
-/
import Mathlib.Data.List.Sort
import Mathlib.Algebra.Order.Ring.Int

namespace Zumy.Lib

def median (l : List Int) : Int := (l.insertionSort (· ≤ ·))[l.length / 2]?.getD 0

theorem le_getElem_iff {l : List Int} (hsorted : l.Pairwise (· ≤ ·)) {k : Nat} (hk : k < l.length) {m : Int} :
    m ≤ l[k] ↔ l.length - k ≤ l.countP (fun a => decide (m ≤ a)) := by
  constructor
  · intro hle
    have hall : ∀ a ∈ l.drop k, decide (m ≤ a) = true := by
      intro a ha
      obtain ⟨i, hi, rfl⟩ := List.getElem_of_mem ha
      rw [List.getElem_drop, decide_eq_true_eq]
      rcases Nat.eq_zero_or_pos i with rfl | hpos
      · exact hle
      · exact hle.trans (List.pairwise_iff_getElem.1 hsorted k (k + i) hk (by rw [List.length_drop] at hi; omega) (by omega))
    have hdrop : (l.drop k).countP (fun a => decide (m ≤ a)) = l.length - k := by
      rw [List.countP_eq_length.2 hall, List.length_drop]
    rw [← hdrop]
    exact (List.drop_sublist k l).countP_le
  · intro hcount
    by_contra hlt
    have hnone : (l.take (k + 1)).countP (fun a => decide (m ≤ a)) = 0 := by
      rw [List.countP_eq_zero]
      intro a ha
      obtain ⟨i, hi, rfl⟩ := List.getElem_of_mem ha
      rw [List.length_take] at hi
      have hle : l[i] ≤ l[k] := by
        rcases Nat.lt_or_ge i k with hik | hki
        · exact List.pairwise_iff_getElem.1 hsorted i k (by omega) hk hik
        · obtain rfl : i = k := by omega
          exact Int.le_refl _
      rw [List.getElem_take, decide_eq_true_eq]
      omega
    have hsplit : l.countP (fun a => decide (m ≤ a)) =
        (l.take (k + 1)).countP (fun a => decide (m ≤ a)) + (l.drop (k + 1)).countP (fun a => decide (m ≤ a)) := by
      rw [← List.countP_append, List.take_append_drop]
    have hrest : (l.drop (k + 1)).countP (fun a => decide (m ≤ a)) ≤ l.length - (k + 1) := by
      rw [← List.length_drop]
      exact List.countP_le_length
    omega

theorem le_median_iff {l : List Int} (hl : l ≠ []) {m : Int} :
    m ≤ median l ↔ l.length - l.length / 2 ≤ l.countP (fun a => decide (m ≤ a)) := by
  have hpos : 0 < l.length := List.length_pos_iff.2 hl
  have hlength : (l.insertionSort (· ≤ ·)).length = l.length := List.length_insertionSort _ _
  have hk : l.length / 2 < (l.insertionSort (· ≤ ·)).length := by omega
  rw [median, List.getElem?_eq_getElem hk, Option.getD_some, le_getElem_iff (List.pairwise_insertionSort (· ≤ ·) l) hk, hlength,
    (List.perm_insertionSort (· ≤ ·) l).countP_eq]

structure IsMedian (l : List Int) (m : Int) : Prop where
  mem : m ∈ l
  below : 2 * l.countP (fun a => decide (a < m)) ≤ l.length
  above : 2 * l.countP (fun a => decide (m < a)) ≤ l.length

theorem isMedian_median {l : List Int} (hl : l ≠ []) : IsMedian l (median l) := by
  have hpos : 0 < l.length := List.length_pos_iff.2 hl
  have hlength : (l.insertionSort (· ≤ ·)).length = l.length := List.length_insertionSort _ _
  have hk : l.length / 2 < (l.insertionSort (· ≤ ·)).length := by omega
  have hcount := (le_median_iff hl).1 (Int.le_refl (median l))
  have hcount' : ¬ l.length - l.length / 2 ≤ l.countP (fun a => decide (median l + 1 ≤ a)) := by
    rw [← le_median_iff hl]
    omega
  refine ⟨?_, ?_, ?_⟩
  · rw [median, List.getElem?_eq_getElem hk, Option.getD_some]
    exact (List.perm_insertionSort (· ≤ ·) l).mem_iff.1 (List.getElem_mem hk)
  · have hsplit := List.length_eq_countP_add_countP (fun a => decide (median l ≤ a)) (l := l)
    have hlow : l.countP (fun a => decide (a < median l)) = l.countP (fun a => decide ¬ decide (median l ≤ a) = true) :=
      List.countP_congr fun a _ => by simp
    omega
  · have hhigh : l.countP (fun a => decide (median l < a)) = l.countP (fun a => decide (median l + 1 ≤ a)) :=
      List.countP_congr fun a _ => by rw [decide_eq_true_eq, decide_eq_true_eq, Int.lt_iff_add_one_le]
    omega

/-- A window of at most `n + 1` entries slides by one: an entry that is not below the median comes in front, and
    the last goes where there are too many. -/
theorem median_le_of_slide {l : List Int} {n : Nat} {a : Int} (hl : l ≠ []) (hlength : l.length ≤ n + 1) (ha : median l ≤ a) :
    median l ≤ median (a :: l.take n) := by
  have hcount := (le_median_iff hl).1 (Int.le_refl (median l))
  generalize median l = m at hcount ha ⊢
  rw [le_median_iff (List.cons_ne_nil a _), List.countP_cons, List.length_cons, List.length_take, if_pos (decide_eq_true ha)]
  have hsplit : l.countP (fun a => decide (m ≤ a)) =
      (l.take n).countP (fun a => decide (m ≤ a)) + (l.drop n).countP (fun a => decide (m ≤ a)) := by
    rw [← List.countP_append, List.take_append_drop]
  have hrest : (l.drop n).countP (fun a => decide (m ≤ a)) ≤ l.length - n := by
    rw [← List.length_drop]
    exact List.countP_le_length
  omega

end Zumy.Lib
