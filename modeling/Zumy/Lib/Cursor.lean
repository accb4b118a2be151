/-
  Zumy.Lib.Cursor — a cursor over a store that is sorted by its keys.

  A cursor is what is left of the entries. `seek` puts it on the first key that is not below
  the one it is given; from there a loop reads on while its test holds.

  `takeWhile_eq_filter`: the loop reads all that is asked for, and no more, when what is asked
  for comes first and the entry behind it does not meet the test.
-/
import Zumy.Lib.Bytes

namespace Zumy.Lib

variable {α V : Type*} {entries : List (List UInt8 × V)} {key : List UInt8} {l : List α} {ok good : α → Bool}

def Stored (entries : List (List UInt8 × V)) : Prop := entries.Pairwise fun a b => a.1 < b.1

def seek (entries : List (List UInt8 × V)) (key : List UInt8) : List (List UInt8 × V) := entries.dropWhile fun a => a.1 < key

theorem seek_eq_filter (h : Stored entries) : seek entries key = entries.filter fun a => !decide (a.1 < key) := by
  unfold seek
  induction entries with
  | nil => rfl
  | cons a entries ih =>
    obtain ⟨ha, hrest⟩ := List.pairwise_cons.1 h
    by_cases hlt : a.1 < key
    · rw [List.dropWhile_cons_of_pos (by simpa using hlt), List.filter_cons_of_neg (by simpa using hlt), ih hrest]
    · rw [List.dropWhile_cons_of_neg (by simpa using hlt), List.filter_eq_self.2]
      intro b hb
      rcases List.mem_cons.1 hb with rfl | hb
      · simpa using hlt
      · have hbkey : ¬ b.1 < key := fun hbkey => hlt (List.lt_trans (ha b hb) hbkey)
        simpa using hbkey

theorem takeWhile_eq_filter (hgood : ∀ x ∈ l, good x = true → ok x = true)
    (hmono : l.Pairwise fun x y => good y = true → good x = true)
    (hfirst : ∀ x, l.find? (fun y => !good y) = some x → ok x = false) :
    l.takeWhile ok = l.filter good := by
  induction l with
  | nil => rfl
  | cons a l ih =>
    obtain ⟨ha, hrest⟩ := List.pairwise_cons.1 hmono
    cases hga : good a with
    | true =>
      rw [List.takeWhile_cons_of_pos (hgood a List.mem_cons_self hga), List.filter_cons_of_pos hga,
        ih (fun x hx => hgood x (List.mem_cons_of_mem a hx)) hrest fun x hx =>
          hfirst x (by rw [List.find?_cons_of_neg (by simp [hga]), hx])]
    | false =>
      have hoka := hfirst a (List.find?_cons_of_pos (by simp [hga]))
      rw [List.takeWhile_cons_of_neg (by simp [hoka])]
      symm
      rw [List.filter_eq_nil_iff]
      intro x hx hgx
      rcases List.mem_cons.1 hx with rfl | hx
      · rw [hga] at hgx
        cases hgx
      · rw [ha x hx hgx] at hga
        cases hga

end Zumy.Lib
