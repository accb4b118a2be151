/-
  Zumy.Lib.WeakOrder — an `operator<` as the comparator of an ordered map.

  `std::map` takes two keys for the same when neither is less than the other. That is
  sound when `<` is a strict weak order (`transCmp_cmpOf`); a `<` that is weaker than
  intended still gives a map, one that takes more keys for the same. Two lists without
  repetition, up to such a sameness, that cover each other have one length
  (`length_eq_of_cover`).
-/
import Mathlib.Data.Set.Basic
import Mathlib.Data.List.Nodup

namespace Zumy.Lib

variable {α : Type*} {lt : α → α → Bool}

def cmpOf (lt : α → α → Bool) (a b : α) : Ordering :=
  if lt a b then .lt else if lt b a then .gt else .eq

theorem cmpOf_eq_iff {a b : α} : cmpOf lt a b = .eq ↔ lt a b = false ∧ lt b a = false := by
  cases hab : lt a b <;> cases hba : lt b a <;> simp [cmpOf, hab, hba]

/-- `<` is a strict weak order on a set of values. -/
structure StrictWeakOn (lt : α → α → Bool) (S : Set α) : Prop where
  irrefl : ∀ a ∈ S, lt a a = false
  trans : ∀ a ∈ S, ∀ b ∈ S, ∀ c ∈ S, lt a b = true → lt b c = true → lt a c = true
  incomparable : ∀ a ∈ S, ∀ b ∈ S, ∀ c ∈ S, cmpOf lt a b = .eq → cmpOf lt b c = .eq → cmpOf lt a c = .eq

theorem StrictWeakOn.asymm (h : StrictWeakOn lt Set.univ) {a b : α} (hab : lt a b = true) : lt b a = false := by
  rw [Bool.eq_false_iff]
  intro hba
  have haa := h.trans a trivial b trivial a trivial hab hba
  rw [h.irrefl a trivial] at haa
  cases haa

theorem StrictWeakOn.isLE_iff (h : StrictWeakOn lt Set.univ) {a b : α} : (cmpOf lt a b).isLE = true ↔ lt b a = false := by
  unfold cmpOf
  cases hab : lt a b
  · cases hba : lt b a <;> simp
  · simp [h.asymm hab]

theorem transCmp_cmpOf (h : StrictWeakOn lt Set.univ) : Std.TransCmp (cmpOf lt) where
  eq_swap {a b} := by
    unfold cmpOf
    cases hab : lt a b <;> cases hba : lt b a <;> try rfl
    rw [h.asymm hab] at hba
    cases hba
  isLE_trans {a b c} hab hbc := by
    rw [h.isLE_iff] at hab hbc ⊢
    rw [Bool.eq_false_iff]
    intro hca
    cases hab' : lt a b <;> cases hbc' : lt b c
    · have hac := cmpOf_eq_iff.1 (h.incomparable a trivial b trivial c trivial (cmpOf_eq_iff.2 ⟨hab', hab⟩)
        (cmpOf_eq_iff.2 ⟨hbc', hbc⟩))
      rw [hac.2] at hca
      cases hca
    · have hba := h.trans b trivial c trivial a trivial hbc' hca
      rw [hab] at hba
      cases hba
    · have hcb := h.trans c trivial a trivial b trivial hca hab'
      rw [hbc] at hcb
      cases hcb
    · have hcb := h.trans c trivial a trivial b trivial hca hab'
      rw [hbc] at hcb
      cases hcb

/-! ## Lists without repetition, up to an equivalence -/

theorem length_eq_of_cover {r : α → α → Prop} (hr : Equivalence r) {l l' : List α} (hl : l.Pairwise fun a b => ¬ r a b)
    (hl' : l'.Pairwise fun a b => ¬ r a b) (hsub : ∀ a ∈ l, ∃ b ∈ l', r a b) (hsub' : ∀ b ∈ l', ∃ a ∈ l, r a b) :
    l.length = l'.length := by
  let cls : α → Quotient ⟨r, hr⟩ := Quotient.mk ⟨r, hr⟩
  have hcls (a b : α) : cls a = cls b ↔ r a b := ⟨fun h => Quotient.exact h, fun h => Quotient.sound h⟩
  have hnodup (l : List α) (hl : l.Pairwise fun a b => ¬ r a b) : (l.map cls).Nodup := by
    rw [List.Nodup, List.pairwise_map]
    exact hl.imp fun hab h => hab ((hcls _ _).1 h)
  rw [← @List.length_map _ _ l cls, ← @List.length_map _ _ l' cls]
  apply List.Perm.length_eq
  rw [List.perm_ext_iff_of_nodup (hnodup l hl) (hnodup l' hl')]
  intro q
  rw [List.mem_map, List.mem_map]
  constructor
  · intro h
    obtain ⟨a, ha, rfl⟩ := h
    obtain ⟨b, hb, hab⟩ := hsub a ha
    exact ⟨b, hb, ((hcls a b).2 hab).symm⟩
  · intro h
    obtain ⟨b, hb, rfl⟩ := h
    obtain ⟨a, ha, hab⟩ := hsub' b hb
    exact ⟨a, ha, (hcls a b).2 hab⟩

end Zumy.Lib
