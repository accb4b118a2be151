/-
  Zumy.Lib.Current — records filed by a key, and the current record of each owner.

  `Filed key owner current seen`: what is filed is filed under its key, and the current
  records, one an owner, are among it. Two owners' records never share a key.

  - `Filed.file`, `Filed.unfile`: records that are not current come and go.
  - `Filed.enter`, `Filed.renew`, `Filed.withdraw`: an owner's current record comes, is
    replaced and goes.
-/
import Mathlib.Data.List.Nodup

namespace Zumy.Lib

variable {R K S : Type*} [DecidableEq K] {key : R → K} {owner : R → S}

structure Filed (key : R → K) (owner : R → S) (current : List R) (seen : K → Option R) : Prop where
  keyed : ∀ k r, seen k = some r → k = key r
  present : ∀ r ∈ current, seen (key r) = some r
  nodup : (current.map owner).Nodup

namespace Filed

variable {current as bs : List R} {seen seen' : K → Option R} {r r' : R} {k : K}

omit [DecidableEq K] in
theorem empty : Filed key owner [] fun _ => none where
  keyed k r h := by cases h
  present r h := by cases h
  nodup := List.nodup_nil

theorem file (h : Filed key owner current seen)
    (hseen : ∀ k, seen' k = if k = key r ∧ seen (key r) = none then some r else seen k) : Filed key owner current seen' where
  keyed k r' hr' := by
    rw [hseen] at hr'
    split at hr'
    · rename_i hk
      cases hr'
      exact hk.1
    · exact h.keyed k r' hr'
  present r' hr' := by
    have hold := h.present r' hr'
    rw [hseen, if_neg, hold]
    intro hk
    rw [hk.1, hk.2] at hold
    cases hold
  nodup := h.nodup

theorem unfile (h : Filed key owner current seen) (hnone : ∀ r ∈ current, key r ≠ k)
    (hseen : ∀ k', seen' k' = if k' = k then none else seen k') : Filed key owner current seen' where
  keyed k' r' hr' := by
    rw [hseen] at hr'
    split at hr'
    · cases hr'
    · exact h.keyed k' r' hr'
  present r' hr' := by
    rw [hseen, if_neg (hnone r' hr')]
    exact h.present r' hr'
  nodup := h.nodup

omit [DecidableEq K] in
theorem enter (h : Filed key owner current seen) (hnew : owner r ∉ current.map owner) (hr : seen (key r) = some r) :
    Filed key owner (current ++ [r]) seen where
  keyed := h.keyed
  present r' hr' := by
    rcases List.mem_append.1 hr' with hr' | hr'
    · exact h.present r' hr'
    · rw [List.mem_singleton.1 hr']
      exact hr
  nodup := by
    rw [List.map_append, List.nodup_append_comm]
    exact List.nodup_cons.2 ⟨hnew, h.nodup⟩

omit [DecidableEq K] in
theorem owner_ne (h : Filed key owner (as ++ r :: bs) seen) (hr' : r' ∈ as ++ bs) : owner r' ≠ owner r := by
  have hnd := h.nodup
  rw [List.map_append, List.map_cons, List.nodup_middle, ← List.map_append] at hnd
  intro hsame
  exact (List.nodup_cons.1 hnd).1 (List.mem_map.2 ⟨r', hr', hsame⟩)

section
variable (hkey : ∀ r r', key r = key r' → owner r = owner r')
include hkey

theorem withdraw (h : Filed key owner (as ++ r :: bs) seen)
    (hseen : ∀ k, seen' k = if k = key r then none else seen k) : Filed key owner (as ++ bs) seen' := by
  have hrest : Filed key owner (as ++ bs) seen := by
    have hnd := h.nodup
    rw [List.map_append, List.map_cons, List.nodup_middle, ← List.map_append] at hnd
    refine ⟨h.keyed, fun r' hr' => h.present r' ?_, (List.nodup_cons.1 hnd).2⟩
    rcases List.mem_append.1 hr' with hr' | hr'
    · exact List.mem_append_left _ hr'
    · exact List.mem_append_right _ (List.mem_cons_of_mem _ hr')
  apply hrest.unfile _ hseen
  intro r' hr' hsame
  exact h.owner_ne hr' (hkey r' r hsame)

omit [DecidableEq K] in
/-- The new record is filed. Nothing else goes than the old one, and that only when the new one has
    another key. -/
theorem renew (h : Filed key owner (as ++ r :: bs) seen) (howner : owner r' = owner r) (hr' : seen (key r') = some r')
    (hgone : ∀ k, seen' k = seen k ∨ (k = key r ∧ key r' ≠ key r ∧ seen' k = none)) :
    Filed key owner (as ++ r' :: bs) seen' where
  keyed k x hx := by
    rcases hgone k with hsame | ⟨-, -, hnone⟩
    · exact h.keyed k x (hsame ▸ hx)
    · rw [hnone] at hx
      cases hx
  present x hx := by
    rcases List.mem_cons.1 (List.perm_middle.mem_iff.1 hx) with rfl | hother
    · rcases hgone (key x) with hsame | ⟨hold, hne, -⟩
      · rw [hsame]
        exact hr'
      · exact absurd hold hne
    · rcases hgone (key x) with hsame | ⟨hold, -, -⟩
      · rw [hsame]
        exact h.present x (List.perm_middle.mem_iff.2 (List.mem_cons_of_mem r hother))
      · exact absurd (hkey x r hold) (h.owner_ne hother)
  nodup := by
    have hnd := h.nodup
    rw [List.map_append, List.map_cons] at hnd ⊢
    rwa [howner]

end

end Filed

end Zumy.Lib
