/-
  Zumy.Lib.Trim — lists that stand for a value at every index: behind the end every entry
  is the default `z`.

  `p` holds of the entries that are dropped from the end; on an `Exact` list it holds of
  `z` only. A `Trimmed` list ends with an entry that is not the default, so it is known by
  its entries (`Trimmed.ext`).
-/
import Mathlib.Data.List.DropRight
import Mathlib.Logic.Function.Basic

namespace Zumy.Lib

variable {α : Type*} {p : α → Bool} {z : α} {l l' : List α} {a : α} {n : Nat}

def entry (z : α) (l : List α) (i : Nat) : α := l[i]?.getD z

def Exact (p : α → Bool) (z : α) (l : List α) : Prop := ∀ a ∈ l, p a = true → a = z

structure Trimmed (p : α → Bool) (z : α) (l : List α) : Prop where
  exact : Exact p z l
  last : l.rdropWhile p = l

/-- The list that has `a` at index `n`. -/
def setEntry (z : α) (n : Nat) (a : α) (l : List α) : List α := (if l.length < n + 1 then l.rightpad (n + 1) z else l).set n a

@[simp] theorem entry_nil : entry z [] = fun _ => z := rfl

theorem entry_of_lt (h : n < l.length) : entry z l n = l[n] := by simp [entry, h]

theorem entry_of_le (h : l.length ≤ n) : entry z l n = z := by simp [entry, h]

theorem entry_append_default (h : ∀ a ∈ l', a = z) : entry z (l ++ l') = entry z l := by
  funext i
  by_cases hi : i < l.length
  · simp [entry, List.getElem?_append_left hi]
  · rw [entry_of_le (Nat.le_of_not_lt hi), entry, List.getElem?_append_right (Nat.le_of_not_lt hi)]
    cases hout : l'[i - l.length]? with
    | none => rfl
    | some a => exact h a (List.mem_of_getElem? hout)

theorem entry_set (h : n < l.length) : entry z (l.set n a) = Function.update (entry z l) n a := by
  funext i
  by_cases hi : i = n
  · subst hi
    simp [entry, h]
  · simp [entry, hi, List.getElem?_set_ne (Ne.symm hi)]

@[simp] theorem entry_setEntry : entry z (setEntry z n a l) = Function.update (entry z l) n a := by
  unfold setEntry
  split
  · next hshort =>
    rw [entry_set (by simp [List.rightpad]; omega), List.rightpad, entry_append_default]
    intro b hb
    exact List.eq_of_mem_replicate hb
  · next hlong => rw [entry_set (by omega)]

theorem Exact.set (h : Exact p z l) (ha : p a = true → a = z) : Exact p z (l.set n a) := by
  intro b hb
  rcases List.mem_or_eq_of_mem_set hb with hmem | rfl
  · exact h b hmem
  · exact ha

theorem Exact.setEntry (h : Exact p z l) (ha : p a = true → a = z) : Exact p z (setEntry z n a l) := by
  unfold Lib.setEntry
  split
  · refine Exact.set (fun b hb => ?_) ha
    rcases List.mem_append.1 hb with hmem | hmem
    · exact h b hmem
    · exact fun _ => List.eq_of_mem_replicate hmem
  · exact Exact.set h ha

theorem mem_setEntry {b : α} (h : b ∈ setEntry z n a l) : b ∈ l ∨ b = z ∨ b = a := by
  unfold setEntry at h
  split at h
  · rcases List.mem_or_eq_of_mem_set h with hmem | hb
    · rcases List.mem_append.1 hmem with hmem | hmem
      · exact .inl hmem
      · exact .inr (.inl (List.eq_of_mem_replicate hmem))
    · exact .inr (.inr hb)
  · rcases List.mem_or_eq_of_mem_set h with hmem | hb
    · exact .inl hmem
    · exact .inr (.inr hb)

theorem mem_rdropWhile (h : a ∈ l.rdropWhile p) : a ∈ l := (List.rdropWhile_prefix p l).subset h

theorem entry_rdropWhile (h : Exact p z l) : entry z (l.rdropWhile p) = entry z l := by
  conv_rhs => rw [← List.rdropWhile_append_rtakeWhile (p := p) (l := l)]
  symm
  apply entry_append_default
  intro a ha
  have hmem : a ∈ l := (List.rtakeWhile_suffix p l).subset ha
  exact h a hmem (List.mem_rtakeWhile_imp ha)

theorem trimmed_rdropWhile (h : Exact p z l) : Trimmed p z (l.rdropWhile p) :=
  ⟨fun a ha => h a (mem_rdropWhile ha), List.rdropWhile_idempotent p l⟩

theorem trimmed_nil : Trimmed p z ([] : List α) := ⟨fun _ h => by simp at h, List.rdropWhile_nil p⟩

theorem Trimmed.length_le (h : Trimmed p z l) (hz : p z = true) (heq : entry z l = entry z l') : l.length ≤ l'.length := by
  by_contra hlong
  have hne : l ≠ [] := by
    rintro rfl
    simp at hlong
  apply List.rdropWhile_eq_self_iff.1 h.last hne
  have hlast : entry z l (l.length - 1) = z := by rw [heq, entry_of_le (by omega)]
  have hpos : 0 < l.length := List.length_pos_iff.2 hne
  rw [entry_of_lt (by omega)] at hlast
  rw [List.getLast_eq_getElem, hlast, hz]

theorem Trimmed.ext (hz : p z = true) (h : Trimmed p z l) (h' : Trimmed p z l') (heq : entry z l = entry z l') : l = l' := by
  have hlength : l.length = l'.length := Nat.le_antisymm (h.length_le hz heq) (h'.length_le hz heq.symm)
  apply List.ext_getElem hlength
  intro i hi hi'
  have hentry := congrFun heq i
  rwa [entry_of_lt hi, entry_of_lt hi'] at hentry

end Zumy.Lib
