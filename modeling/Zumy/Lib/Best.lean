/-
  Zumy.Lib.Best — the best of a list, kept in one pass.

  `keepBetter` replaces the best so far only by one with a strictly higher score; an
  element without a score is passed over.

  - `foldl_keepBetter_le`: no score of the list is above the best one.
  - `foldl_keepBetter_cases`: the best one is the one at the start or an element of the list
    with its score.
  - `foldl_keepBetter_eq_iff`: it is the first element with the highest score.
-/
import Mathlib.Data.List.Induction
import Mathlib.Order.Lattice

namespace Zumy.Lib

variable {α β : Type*} [LinearOrder β]

def keepBetter (score : α → Option β) (best : Option α × β) (a : α) : Option α × β :=
  match score a with
  | none => best
  | some n => if best.2 < n then (some a, n) else best

variable {score : α → Option β} {best : Option α × β} {a : α} {n : β}

theorem le_keepBetter : best.2 ≤ (keepBetter score best a).2 := by
  unfold keepBetter
  cases score a with
  | none => exact le_rfl
  | some n =>
    by_cases hlt : best.2 < n
    · simpa [hlt] using hlt.le
    · simp [hlt]

theorem score_le_keepBetter (ha : score a = some n) : n ≤ (keepBetter score best a).2 := by
  unfold keepBetter
  rw [ha]
  by_cases hlt : best.2 < n
  · simp [hlt]
  · simpa [hlt] using not_lt.1 hlt

theorem keepBetter_cases (best : Option α × β) (a : α) :
    keepBetter score best a = best ∨ ∃ n, score a = some n ∧ keepBetter score best a = (some a, n) := by
  unfold keepBetter
  cases hs : score a with
  | none => exact .inl rfl
  | some n =>
    by_cases hlt : best.2 < n
    · exact .inr ⟨n, rfl, if_pos hlt⟩
    · exact .inl (if_neg hlt)

theorem le_foldl_keepBetter (l : List α) : best.2 ≤ (l.foldl (keepBetter score) best).2 := by
  induction l generalizing best with
  | nil => exact le_rfl
  | cons a l ih => exact le_keepBetter.trans ih

variable (best) in
theorem foldl_keepBetter_le {l : List α} (ha : a ∈ l) (hn : score a = some n) :
    n ≤ (l.foldl (keepBetter score) best).2 := by
  induction l generalizing best with
  | nil => cases ha
  | cons b l ih =>
    rcases List.mem_cons.1 ha with rfl | ha
    · exact (score_le_keepBetter hn).trans (le_foldl_keepBetter l)
    · exact ih _ ha

variable (score best) in
theorem foldl_keepBetter_cases (l : List α) : l.foldl (keepBetter score) best = best ∨
    ∃ a ∈ l, ∃ n, score a = some n ∧ l.foldl (keepBetter score) best = (some a, n) := by
  induction l generalizing best with
  | nil => exact .inl rfl
  | cons a l ih =>
    rw [List.foldl_cons]
    rcases ih (keepBetter score best a) with hsame | ⟨b, hb, n, hn, heq⟩
    · rw [hsame]
      rcases keepBetter_cases best a with hsame | ⟨n, hn, heq⟩
      · exact .inl hsame
      · exact .inr ⟨a, by simp, n, hn, heq⟩
    · exact .inr ⟨b, by simp [hb], n, hn, heq⟩

theorem foldl_keepBetter_of_le {l : List α} (h : ∀ x ∈ l, ∀ m, score x = some m → m ≤ best.2) :
    l.foldl (keepBetter score) best = best := by
  induction l with
  | nil => rfl
  | cons b l ih =>
    have hkeep : keepBetter score best b = best := by
      unfold keepBetter
      cases hb : score b with
      | none => rfl
      | some m => simp [not_lt.2 (h b (by simp) m hb)]
    rw [List.foldl_cons, hkeep]
    exact ih fun x hx => h x (List.mem_cons_of_mem b hx)

/-- The first of the elements with the highest score `n`, where that is above `least`. -/
def Leads (score : α → Option β) (least : β) (l : List α) (a : α) (n : β) : Prop :=
  ∃ l₁ l₂, l = l₁ ++ a :: l₂ ∧ score a = some n ∧ least < n ∧
    (∀ x ∈ l₁, ∀ m, score x = some m → m < n) ∧ ∀ x ∈ l₂, ∀ m, score x = some m → m ≤ n

theorem foldl_keepBetter_eq_iff {least : β} {l : List α} :
    l.foldl (keepBetter score) (none, least) = (some a, n) ↔ Leads score least l a n := by
  constructor
  · intro h
    induction l using List.reverseRecOn generalizing a n with
    | nil => cases h
    | append_singleton l x ih =>
      rw [List.foldl_append, List.foldl_cons, List.foldl_nil] at h
      have hle {y : α} {m : β} (hy : y ∈ l) (hm : score y = some m) := foldl_keepBetter_le (none, least) hy hm
      have hstart : ((none, least) : Option α × β).2 ≤ (l.foldl (keepBetter score) (none, least)).2 := le_foldl_keepBetter l
      generalize hbest : l.foldl (keepBetter score) (none, least) = best at h hle hstart
      by_cases hsame : best = (some a, n)
      · obtain ⟨l₁, l₂, rfl, hscore, hleast, hbefore, hbehind⟩ := ih (hbest.trans hsame)
        refine ⟨l₁, l₂ ++ [x], by simp, hscore, hleast, hbefore, fun y hy m hm => ?_⟩
        rcases List.mem_append.1 hy with hy | hy
        · exact hbehind y hy m hm
        · obtain rfl := List.mem_singleton.1 hy
          have hx : m ≤ (keepBetter score best y).2 := score_le_keepBetter hm
          rwa [h] at hx
      · -- the last element has replaced the best one
        have hcases : keepBetter score best x = best ∨ ∃ m, score x = some m ∧ keepBetter score best x = (some x, m) :=
          keepBetter_cases best x
        rcases hcases with hkept | ⟨m, hm, heq⟩
        · exact absurd (hkept.symm.trans h) hsame
        · obtain ⟨hx, rfl⟩ := Prod.mk.inj (heq.symm.trans h)
          cases hx
          have hlt : best.2 < m := by
            by_contra hnot
            have hkept : keepBetter score best x = best := by simp [keepBetter, hm, hnot]
            exact hsame (hkept.symm.trans heq)
          exact ⟨l, [], rfl, hm, hstart.trans_lt hlt, fun y hy k hk => (hle hy hk).trans_lt hlt,
            fun y hy => absurd hy List.not_mem_nil⟩
  · rintro ⟨l₁, l₂, rfl, hscore, hleast, hbefore, hbehind⟩
    have hlt : (l₁.foldl (keepBetter score) (none, least)).2 < n := by
      rcases foldl_keepBetter_cases score (none, least) l₁ with hsame | ⟨b, hb, m, hm, heq⟩
      · rw [hsame]
        exact hleast
      · rw [heq]
        exact hbefore b hb m hm
    have hkeep : keepBetter score (l₁.foldl (keepBetter score) (none, least)) a = (some a, n) := by
      unfold keepBetter
      rw [hscore]
      exact if_pos hlt
    rw [List.foldl_append, List.foldl_cons, hkeep]
    exact foldl_keepBetter_of_le hbehind

theorem foldl_keepBetter_isSome_iff {least : β} {l : List α} :
    ((l.foldl (keepBetter score) (none, least)).1).isSome = true ↔ ∃ a ∈ l, ∃ n, score a = some n ∧ least < n := by
  constructor
  · intro h
    obtain ⟨a, ha⟩ := Option.isSome_iff_exists.1 h
    obtain ⟨l₁, l₂, rfl, hscore, hleast, -⟩ := foldl_keepBetter_eq_iff.1 (Prod.ext ha rfl)
    exact ⟨a, by simp, _, hscore, hleast⟩
  · rintro ⟨a, ha, n, hn, hlt⟩
    rcases foldl_keepBetter_cases score (none, least) l with hsame | ⟨b, -, m, -, heq⟩
    · have hle := foldl_keepBetter_le (none, least) ha hn
      rw [hsame] at hle
      exact absurd hlt (not_lt.2 hle)
    · rw [heq]
      rfl

end Zumy.Lib
