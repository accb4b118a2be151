/-
  Zumy.Lib.Worklist — a graph is searched with a set of nodes still to visit.

  `explore next n stage visited` takes the least node of `stage`, visits it, and stages what
  follows it and was not visited. `mem_explore`: with a turn for each node it ends with the
  nodes that were visited before and those that `stage` reaches.

  `sweep` does the same with visits that read and change a state and may fail. `Sweeps`: a
  visit's outcome depends on the node alone and the state on which nodes were visited. Then
  with a turn for each node `sweep` visits what `explore` visits (`Sweeps.sweep_some`), and
  fails where one of those visits does (`Sweeps.sweep_none`). What each visit preserves, a
  sweep preserves (`sweep_inv`).
-/
import Mathlib.Data.Finset.Sort
import Mathlib.Logic.Relation

namespace Zumy.Lib

variable {κ : Type*} [LinearOrder κ] {next : κ → Finset κ} {stage visited U s : Finset κ} {a b k x y : κ} {n : Nat}

/-- `*begin()` of an ordered set. -/
def begin? (s : Finset κ) : Option κ := (s.sort (· ≤ ·)).head?

theorem mem_of_begin? (h : begin? s = some k) : k ∈ s := by
  have hmem := List.mem_of_head? h
  rwa [Finset.mem_sort] at hmem

theorem eq_empty_of_begin? (h : begin? s = none) : s = ∅ := by
  have hnil := List.head?_eq_none_iff.1 h
  rw [Finset.eq_empty_iff_forall_notMem]
  intro x hx
  rw [← Finset.mem_sort (· ≤ ·), hnil] at hx
  cases hx

def Reach (next : κ → Finset κ) : κ → κ → Prop := Relation.ReflTransGen fun a b => b ∈ next a

def explore (next : κ → Finset κ) : Nat → Finset κ → Finset κ → Finset κ
  | 0, _, visited => visited
  | n + 1, stage, visited =>
    match begin? stage with
    | none => visited
    | some k => explore next n (stage.erase k ∪ (next k \ insert k visited)) (insert k visited)

theorem subset_explore : visited ⊆ explore next n stage visited := by
  induction n generalizing stage visited with
  | zero => exact Finset.Subset.refl visited
  | succ n ih =>
    unfold explore
    cases begin? stage with
    | none => exact Finset.Subset.refl visited
    | some k => exact (Finset.subset_insert k visited).trans ih

theorem mem_explore_start (hn : 0 < n) : x ∈ explore next n {x} visited := by
  obtain ⟨n, rfl⟩ := Nat.exists_eq_succ_of_ne_zero hn.ne'
  unfold explore
  have hbegin : begin? ({x} : Finset κ) = some x := by simp [begin?]
  rw [hbegin]
  exact subset_explore (Finset.mem_insert_self x visited)

structure Searching (next : κ → Finset κ) (U stage visited : Finset κ) : Prop where
  staged : stage ⊆ U
  fresh : Disjoint stage visited
  frontier : ∀ x ∈ visited, ∀ y ∈ next x, y ∈ visited ∨ y ∈ stage

theorem Searching.turn (h : Searching next U stage visited) (hnext : ∀ k ∈ U, next k ⊆ U) (hk : k ∈ stage) :
    Searching next U (stage.erase k ∪ (next k \ insert k visited)) (insert k visited) where
  staged := by
    refine Finset.union_subset ((Finset.erase_subset _ _).trans h.staged) ?_
    exact Finset.sdiff_subset.trans (hnext k (h.staged hk))
  fresh := by
    rw [Finset.disjoint_left]
    intro x hx hvisited
    rcases Finset.mem_union.1 hx with hx | hx
    · obtain ⟨hne, hx⟩ := Finset.mem_erase.1 hx
      rcases Finset.mem_insert.1 hvisited with rfl | hvisited
      · exact hne rfl
      · exact Finset.disjoint_left.1 h.fresh hx hvisited
    · exact (Finset.mem_sdiff.1 hx).2 hvisited
  frontier x hx y hy := by
    by_cases hyk : y ∈ insert k visited
    · exact .inl hyk
    · right
      rcases Finset.mem_insert.1 hx with rfl | hx
      · exact Finset.mem_union_right _ (Finset.mem_sdiff.2 ⟨hy, hyk⟩)
      · rw [Finset.mem_insert, not_or] at hyk
        refine Finset.mem_union_left _ (Finset.mem_erase.2 ⟨hyk.1, ?_⟩)
        exact (h.frontier x hx y hy).resolve_left hyk.2

theorem Searching.stage_eq_empty (h : Searching next U stage visited) (hn : (U \ visited).card = 0) : stage = ∅ := by
  rw [Finset.eq_empty_iff_forall_notMem]
  intro x hx
  have hmem : x ∈ U \ visited := Finset.mem_sdiff.2 ⟨h.staged hx, Finset.disjoint_left.1 h.fresh hx⟩
  rw [Finset.card_eq_zero.1 hn] at hmem
  exact absurd hmem (Finset.notMem_empty x)

theorem Searching.card_turn (h : Searching next U stage visited) (hk : k ∈ stage) (hn : (U \ visited).card ≤ n + 1) :
    (U \ insert k visited).card ≤ n := by
  have hlt : (U \ insert k visited).card < (U \ visited).card := by
    apply Finset.card_lt_card
    refine ⟨Finset.sdiff_subset_sdiff (Finset.Subset.refl U) (Finset.subset_insert k visited), fun hsub => ?_⟩
    have hfresh : k ∉ visited := Finset.disjoint_left.1 h.fresh hk
    have hmem := hsub (Finset.mem_sdiff.2 ⟨h.staged hk, hfresh⟩)
    exact (Finset.mem_sdiff.1 hmem).2 (Finset.mem_insert_self k visited)
  omega

theorem explore_spec (hnext : ∀ k ∈ U, next k ⊆ U) (h : Searching next U stage visited) (hn : (U \ visited).card ≤ n) :
    (∀ x, x ∈ visited ∨ x ∈ stage → x ∈ explore next n stage visited) ∧
      (∀ x ∈ explore next n stage visited, ∀ y ∈ next x, y ∈ explore next n stage visited) ∧
      ∀ y ∈ explore next n stage visited, y ∈ visited ∨ ∃ x ∈ stage, Reach next x y := by
  induction n generalizing stage visited with
  | zero =>
    have hempty := h.stage_eq_empty (Nat.le_zero.1 hn)
    subst hempty
    refine ⟨fun x hx => hx.resolve_right (Finset.notMem_empty x), fun x hx y hy => ?_, fun y hy => .inl hy⟩
    exact (h.frontier x hx y hy).resolve_right (Finset.notMem_empty y)
  | succ n ih =>
    unfold explore
    cases hbegin : begin? stage with
    | none =>
      have hempty := eq_empty_of_begin? hbegin
      subst hempty
      refine ⟨fun x hx => hx.resolve_right (Finset.notMem_empty x), fun x hx y hy => ?_, fun y hy => .inl hy⟩
      exact (h.frontier x hx y hy).resolve_right (Finset.notMem_empty y)
    | some k =>
      have hk := mem_of_begin? hbegin
      obtain ⟨hsub, hclosed, hsound⟩ := ih (h.turn hnext hk) (h.card_turn hk hn)
      refine ⟨fun x hx => hsub x ?_, hclosed, fun y hy => ?_⟩
      · rcases hx with hx | hx
        · exact .inl (Finset.mem_insert_of_mem hx)
        · by_cases hxk : x = k
          · exact .inl (hxk ▸ Finset.mem_insert_self k visited)
          · exact .inr (Finset.mem_union_left _ (Finset.mem_erase.2 ⟨hxk, hx⟩))
      · rcases hsound y hy with hy | ⟨x, hx, hreach⟩
        · rcases Finset.mem_insert.1 hy with rfl | hy
          · exact .inr ⟨y, hk, .refl⟩
          · exact .inl hy
        · rcases Finset.mem_union.1 hx with hx | hx
          · exact .inr ⟨x, Finset.mem_of_mem_erase hx, hreach⟩
          · exact .inr ⟨k, hk, .head (Finset.mem_sdiff.1 hx).1 hreach⟩

theorem mem_explore (hnext : ∀ k ∈ U, next k ⊆ U) (h : Searching next U stage visited) (hn : U.card ≤ n) :
    y ∈ explore next n stage visited ↔ y ∈ visited ∨ ∃ x ∈ stage, Reach next x y := by
  obtain ⟨hsub, hclosed, hsound⟩ := explore_spec hnext h ((Finset.card_le_card Finset.sdiff_subset).trans hn)
  refine ⟨hsound y, fun hy => ?_⟩
  rcases hy with hy | ⟨x, hx, hreach⟩
  · exact hsub y (.inl hy)
  · have hx' := hsub x (.inr hx)
    clear hx
    induction hreach with
    | refl => exact hx'
    | tail _ hstep ih => exact hclosed _ ih _ hstep

/-! ## Visits that change a state -/

section
variable {σ : Type*} {visit : σ → κ → Option (σ × Finset κ)} {ok : κ → Prop} {Rep : Finset κ → σ → Prop} {s : σ}

/-- `none` where a visit fails, and where the turns end before the search does. -/
def sweep (visit : σ → κ → Option (σ × Finset κ)) : Nat → σ → Finset κ → Finset κ → Option σ
  | 0, s, stage, _ => if stage = ∅ then some s else none
  | n + 1, s, stage, visited =>
    match begin? stage with
    | none => some s
    | some k =>
      (visit s k).bind fun (s, found) => sweep visit n s (stage.erase k ∪ (found \ insert k visited)) (insert k visited)

theorem sweep_inv (I : σ → Prop) (hvisit : ∀ s k r, I s → visit s k = some r → I r.1) {s' : σ} (hs : I s)
    (h : sweep visit n s stage visited = some s') : I s' := by
  induction n generalizing s stage visited with
  | zero =>
    unfold sweep at h
    split at h
    · cases h
      exact hs
    · cases h
  | succ n ih =>
    unfold sweep at h
    cases hbegin : begin? stage with
    | none =>
      simp only [hbegin] at h
      cases h
      exact hs
    | some k =>
      simp only [hbegin] at h
      obtain ⟨r, hr, hrest⟩ := Option.bind_eq_some_iff.1 h
      exact ih (hvisit s k r hs hr) hrest

/-- `Rep visited s`: the state is what the visits of these nodes leave. -/
structure Sweeps (visit : σ → κ → Option (σ × Finset κ)) (next : κ → Finset κ) (ok : κ → Prop) (U : Finset κ)
    (Rep : Finset κ → σ → Prop) : Prop where
  closed : ∀ k ∈ U, next k ⊆ U
  pass : ∀ visited s k, Rep visited s → k ∈ U → k ∉ visited → ok k →
    ∃ s', visit s k = some (s', next k) ∧ Rep (insert k visited) s'
  fail : ∀ visited s k, Rep visited s → k ∈ U → k ∉ visited → ¬ ok k → visit s k = none

theorem Sweeps.sweep_some (hv : Sweeps visit next ok U Rep) (h : Searching next U stage visited)
    (hn : (U \ visited).card ≤ n) (hrep : Rep visited s)
    (hok : ∀ y ∈ explore next n stage visited, y ∉ visited → ok y) :
    ∃ s', sweep visit n s stage visited = some s' ∧ Rep (explore next n stage visited) s' := by
  induction n generalizing s stage visited with
  | zero =>
    have hempty := h.stage_eq_empty (Nat.le_zero.1 hn)
    exact ⟨s, if_pos hempty, hrep⟩
  | succ n ih =>
    unfold sweep
    unfold explore at hok ⊢
    cases hbegin : begin? stage with
    | none => exact ⟨s, rfl, hrep⟩
    | some k =>
      simp only [hbegin] at hok
      have hk := mem_of_begin? hbegin
      have hfresh : k ∉ visited := Finset.disjoint_left.1 h.fresh hk
      have hokk : ok k := hok k (subset_explore (Finset.mem_insert_self k visited)) hfresh
      obtain ⟨s', hs', hrep'⟩ := hv.pass visited s k hrep (h.staged hk) hfresh hokk
      simp only [hs', Option.bind_some]
      refine ih (h.turn hv.closed hk) (h.card_turn hk hn) hrep' fun y hy hyv => hok y hy fun hyv' => ?_
      exact hyv (Finset.mem_insert_of_mem hyv')

theorem Sweeps.sweep_none (hv : Sweeps visit next ok U Rep) (h : Searching next U stage visited)
    (hrep : Rep visited s) (hbad : ∃ y ∈ explore next n stage visited, y ∉ visited ∧ ¬ ok y) :
    sweep visit n s stage visited = none := by
  induction n generalizing s stage visited with
  | zero =>
    obtain ⟨y, hy, hyv, -⟩ := hbad
    exact absurd hy hyv
  | succ n ih =>
    obtain ⟨y, hy, hyv, hyok⟩ := hbad
    unfold sweep
    unfold explore at hy
    cases hbegin : begin? stage with
    | none =>
      simp only [hbegin] at hy
      exact absurd hy hyv
    | some k =>
      simp only [hbegin] at hy
      have hk := mem_of_begin? hbegin
      have hfresh : k ∉ visited := Finset.disjoint_left.1 h.fresh hk
      by_cases hokk : ok k
      · obtain ⟨s', hs', hrep'⟩ := hv.pass visited s k hrep (h.staged hk) hfresh hokk
        simp only [hs', Option.bind_some]
        refine ih (h.turn hv.closed hk) hrep' ⟨y, hy, fun hyv' => ?_, hyok⟩
        rcases Finset.mem_insert.1 hyv' with rfl | hyv'
        · exact hyok hokk
        · exact hyv hyv'
      · simp only [hv.fail visited s k hrep (h.staged hk) hfresh hokk, Option.bind_none]

end

end Zumy.Lib
