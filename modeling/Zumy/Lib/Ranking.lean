/-
  Zumy.Lib.Ranking — the places of a sorted list.

  Where a relation orders a list and tells its elements apart (`Orders`), sorting has one
  result, whatever the sort, and sorting a part of the list gives the first places of the
  whole just when the part comes in front of the rest (`sorted_filter_isPrefix_iff`).

  Where elements are tied, those on the first places have few in front of them
  (`countP_lt_of_mem_take`), and one with few in front is tied with one of those
  (`exists_tied_of_countP_lt`).
-/
import Mathlib.Data.Int.ConditionallyCompleteOrder
import Mathlib.Data.List.Sort
import Mathlib.Data.Set.Function
import Mathlib.Order.ConditionallyCompleteLattice.Basic
import Mathlib.Order.Interval.Set.Defs

namespace Zumy.Lib

variable {α : Type*} {r : α → α → Prop} {l l' : List α} {p : α → Bool} {a : α}

structure Orders (r : α → α → Prop) (l : List α) : Prop where
  total : ∀ a b, r a b ∨ r b a
  trans : ∀ a b c, r a b → r b c → r a c
  antisymm : ∀ a ∈ l, ∀ b ∈ l, r a b → r b a → a = b
  nodup : l.Nodup

variable [DecidableRel r]

theorem pairwise_sorted (htotal : ∀ a b, r a b ∨ r b a) (htrans : ∀ a b c, r a b → r b c → r a c) (l : List α) :
    (l.insertionSort r).Pairwise r :=
  have : Std.Total r := ⟨htotal⟩
  have : IsTrans α r := ⟨htrans⟩
  List.pairwise_insertionSort r l

theorem Orders.pairwise_sorted (h : Orders r l) (l' : List α) : (l'.insertionSort r).Pairwise r :=
  Lib.pairwise_sorted h.total h.trans l'

theorem Orders.sorted_eq (h : Orders r l) (hperm : l'.Perm l) (hpairwise : l'.Pairwise r) : l.insertionSort r = l' := by
  apply ((List.perm_insertionSort r l).trans hperm.symm).eq_of_pairwise _ (h.pairwise_sorted l) hpairwise
  intro a b ha hb hab hba
  exact h.antisymm a ((List.mem_insertionSort r).1 ha) b (hperm.subset hb) hab hba

theorem Orders.nodup_sorted (h : Orders r l) : (l.insertionSort r).Nodup :=
  (List.perm_insertionSort r l).nodup_iff.2 h.nodup

/-! ## Elements that are not told apart -/

section Ties

variable (htotal : ∀ a b, r a b ∨ r b a) (htrans : ∀ a b c, r a b → r b c → r a c)
include htotal htrans

theorem countP_lt_of_mem_take {k : Nat} (ha : a ∈ (l.insertionSort r).take k) : l.countP (fun b => !decide (r a b)) < k := by
  have hsorted := pairwise_sorted htotal htrans l
  rw [← (List.perm_insertionSort r l).countP_eq]
  obtain ⟨front, back, hsplit⟩ := List.append_of_mem ha
  have hlist : l.insertionSort r = front ++ a :: (back ++ (l.insertionSort r).drop k) := by
    rw [← List.cons_append, ← List.append_assoc, ← hsplit, List.take_append_drop]
  have hlength : front.length < k := by
    have htake := List.length_take_le k (l.insertionSort r)
    rw [hsplit, List.length_append, List.length_cons] at htake
    omega
  rw [hlist, List.pairwise_append] at hsorted
  have hback : ∀ b ∈ a :: (back ++ (l.insertionSort r).drop k), ¬ (!decide (r a b)) = true := by
    intro b hb
    have hab : r a b := by
      rcases List.mem_cons.1 hb with rfl | hb
      · exact (htotal b b).elim id id
      · exact (List.pairwise_cons.1 hsorted.2.1).1 b hb
    simpa using hab
  rw [hlist, List.countP_append, List.countP_eq_zero.2 hback]
  exact (List.countP_le_length.trans_lt hlength)

/-- An element with few in front of it has its equal on one of the first places. -/
theorem exists_tied_of_countP_lt {k : Nat} (ha : a ∈ l) (h : l.countP (fun b => !decide (r a b)) < k) :
    ∃ b ∈ (l.insertionSort r).take k, r a b ∧ r b a := by
  have hsorted := pairwise_sorted htotal htrans l
  rw [← (List.perm_insertionSort r l).countP_eq] at h
  rw [← List.take_append_drop k (l.insertionSort r)] at h hsorted
  have hin : a ∈ (l.insertionSort r).take k ∨ a ∈ (l.insertionSort r).drop k := by
    rw [← List.mem_append, List.take_append_drop]
    exact (List.mem_insertionSort r).2 ha
  rcases hin with hin | hin
  · exact ⟨a, hin, (htotal a a).elim id id, (htotal a a).elim id id⟩
  · have hfull : ((l.insertionSort r).take k).length = k := by
      have hdrop := List.length_pos_of_mem hin
      rw [List.length_drop] at hdrop
      rw [List.length_take]
      omega
    rw [List.countP_append] at h
    have hnot : ¬ ∀ b ∈ (l.insertionSort r).take k, (!decide (r a b)) = true := fun hall => by
      rw [List.countP_eq_length.2 hall] at h
      omega
    push Not at hnot
    obtain ⟨b, hb, hab⟩ := hnot
    exact ⟨b, hb, by simpa using hab, (List.pairwise_append.1 hsorted).2.2 b hb a hin⟩

end Ties

/-! ## By one key, then by another order -/

section Lexicographic

variable {β : Type*} [LinearOrder β] {s : α → α → Prop} {b c : α}

theorem lexicographic_total (key : α → β) (hs : ∀ a b, s a b ∨ s b a) (a b : α) :
    (key a < key b ∨ (key a = key b ∧ s a b)) ∨ (key b < key a ∨ (key b = key a ∧ s b a)) := by
  rcases lt_trichotomy (key a) (key b) with hlt | heq | hgt
  · exact .inl (.inl hlt)
  · exact (hs a b).imp (fun hab => .inr ⟨heq, hab⟩) fun hba => .inr ⟨heq.symm, hba⟩
  · exact .inr (.inl hgt)

theorem lexicographic_trans (key : α → β) (hs : ∀ a b c, s a b → s b c → s a c) (hab : key a < key b ∨ (key a = key b ∧ s a b))
    (hbc : key b < key c ∨ (key b = key c ∧ s b c)) :
    key a < key c ∨ (key a = key c ∧ s a c) := by
  rcases hab with hab | ⟨hab, hs'⟩
  · rcases hbc with hbc | ⟨hbc, -⟩
    · exact .inl (hab.trans hbc)
    · exact .inl (hbc ▸ hab)
  · rcases hbc with hbc | ⟨hbc, hs''⟩
    · exact .inl (hab ▸ hbc)
    · exact .inr ⟨hab.trans hbc, hs _ _ _ hs' hs''⟩

end Lexicographic

/-- A part of the list takes the first places when it comes in front of the rest. -/
theorem sorted_filter_isPrefix_iff (h : Orders r l) :
    (l.filter p).insertionSort r <+: l.insertionSort r ↔ ∀ a ∈ l, ∀ b ∈ l, p a = true → p b = false → r a b := by
  have hmem : ∀ a, a ∈ (l.filter p).insertionSort r ↔ a ∈ l ∧ p a = true := fun a => by
    rw [List.mem_insertionSort, List.mem_filter]
  constructor
  · rintro ⟨rest, hrest⟩ a ha b hb hpa hpb
    have hsorted := h.pairwise_sorted l
    rw [← hrest, List.pairwise_append] at hsorted
    have hin : b ∈ (l.filter p).insertionSort r ++ rest := by
      rw [hrest]
      exact (List.mem_insertionSort r).2 hb
    rcases List.mem_append.1 hin with hfirst | hlast
    · rw [hmem, hpb] at hfirst
      cases hfirst.2
    · exact hsorted.2.2 a ((hmem a).2 ⟨ha, hpa⟩) b hlast
  · intro hall
    refine ⟨(l.filter fun a => !p a).insertionSort r, ?_⟩
    symm
    apply h.sorted_eq
    · exact ((List.perm_insertionSort r _).append (List.perm_insertionSort r _)).trans (List.filter_append_perm p l)
    · rw [List.pairwise_append]
      refine ⟨h.pairwise_sorted _, h.pairwise_sorted _, ?_⟩
      intro a ha b hb
      rw [List.mem_insertionSort, List.mem_filter, Bool.not_eq_true'] at hb
      rw [hmem] at ha
      exact hall a ha.1 b hb.1 ha.2 hb.2

theorem bijOn_places {place : α → Int} (hplace : ∀ (i : Nat) (a : α), l[i]? = some a → place a = i + 1) :
    Set.BijOn place {a | a ∈ l} (Set.Icc 1 (l.length : Int)) := by
  refine ⟨?_, ?_, ?_⟩
  · intro a ha
    obtain ⟨i, hi⟩ := List.mem_iff_getElem?.1 ha
    have hlt : i < l.length := (List.getElem?_eq_some_iff.1 hi).1
    rw [hplace i a hi]
    exact ⟨by omega, by omega⟩
  · intro a ha b hb heq
    obtain ⟨i, hi⟩ := List.mem_iff_getElem?.1 ha
    obtain ⟨j, hj⟩ := List.mem_iff_getElem?.1 hb
    rw [hplace i a hi, hplace j b hj] at heq
    have hij : i = j := by omega
    rw [hij, hj] at hi
    exact (Option.some.inj hi).symm
  · intro n hn
    obtain ⟨hone, hle⟩ := hn
    have hlt : (n - 1).toNat < l.length := by omega
    refine ⟨l[(n - 1).toNat], List.getElem_mem hlt, ?_⟩
    rw [hplace (n - 1).toNat _ (List.getElem?_eq_getElem hlt)]
    omega

end Zumy.Lib
