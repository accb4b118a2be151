/-
  Zumy.Lib.Quorum — two thresholds in one quorum.

  Of a quorum's members some sign one value and some another, none both. When the
  threshold is half of the quorum, both values reach it only if the quorum splits in
  half and every member signs one of them.
-/
import Mathlib.Data.Finset.Card
import Mathlib.Data.Finset.Lattice.Basic

namespace Zumy.Lib

variable {α : Type*} [DecidableEq α] {Q A B : Finset α} {k : Nat}

/-- The thresholds fill the quorum: each is met exactly and every member signs. -/
theorem even_split (hA : A ⊆ Q) (hB : B ⊆ Q) (hd : Disjoint A B) (ha : k ≤ A.card) (hb : k ≤ B.card)
    (hQ : Q.card = 2 * k) : A.card = k ∧ B.card = k ∧ A ∪ B = Q := by
  have hunion := Finset.card_union_of_disjoint hd
  have hle := Finset.card_le_card (Finset.union_subset hA hB)
  refine ⟨by omega, by omega, Finset.eq_of_subset_of_card_le (Finset.union_subset hA hB) (by omega)⟩

end Zumy.Lib
