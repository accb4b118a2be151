/-
  Zumy.Mempool.Descendants — the search of `UpdateForDescendants` (txmempool.cpp).

  It goes down from a transaction that came back from a block. Where it meets one it was at
  before, it takes what the cache has for that one and does not go through it again. The
  cache has no transaction of the block, so the search need not find all of those.
-/
import Zumy.Mempool.Pool

namespace Zumy.Mempool

open Zumy.Lib

namespace CTxMemPool

/-- What the cache has for a transaction: its descendants that are not excluded. -/
structure CacheExact (next : Uint256 → SetEntries) (setExclude : SetEntries) (cached : CacheMap) : Prop where
  excluded : ∀ (c : Uint256) (E : SetEntries), cached[c]? = some E → c ∈ setExclude
  found : ∀ (c : Uint256) (E : SetEntries), cached[c]? = some E → ∀ y, y ∈ E ↔ Reach next c y ∧ y ∉ setExclude

def Handled (cached : CacheMap) (v : Visit) (z : Uint256) : Prop :=
  z ∈ v.setAllDescendants ∨ z ∈ v.stageEntries ∨ ∃ E : SetEntries, cached[z]? = some E ∧ E ⊆ v.setAllDescendants

/-- What the search knows. `taken` are the ones it went through, but for the children of
    those in `now`. -/
structure Visiting (next : Uint256 → SetEntries) (U start : SetEntries) (cached : CacheMap) (taken now : SetEntries)
    (v : Visit) : Prop where
  staged : v.stageEntries ⊆ U
  fresh : Disjoint v.stageEntries taken
  taken : taken ⊆ v.setAllDescendants
  sound : ∀ y, y ∈ v.stageEntries ∨ y ∈ v.setAllDescendants → ∃ x ∈ start, Reach next x y
  start : ∀ x ∈ start, x ∈ v.stageEntries ∨ x ∈ v.setAllDescendants
  closed : ∀ y ∈ v.setAllDescendants, y ∉ now → ∀ z ∈ next y, Handled cached v z

variable {s : CTxMemPool} {next : Uint256 → SetEntries} {setExclude U start taken now : SetEntries} {cached : CacheMap}
    {v v' : Visit}
variable {c k z : Uint256} {l : List Uint256} {n maxDescendantsToVisit : Nat}

theorem Handled.mono (h : Handled cached v z) (hall : v.setAllDescendants ⊆ v'.setAllDescendants)
    (hstage : v.stageEntries ⊆ v'.stageEntries) :
    Handled cached v' z := by
  rcases h with h | h | ⟨E, hE, hsub⟩
  · exact .inl (hall h)
  · exact .inr (.inl (hstage h))
  · exact .inr (.inr ⟨E, hE, hsub.trans hall⟩)

theorem foldl_visitCached (setExclude : SetEntries) (l : List Uint256) (v : Visit) :
    (l.foldl (visitCached setExclude) v).stageEntries = v.stageEntries ∧
    (l.foldl (visitCached setExclude) v).setAllDescendants = v.setAllDescendants ∪ l.toFinset := by
  induction l generalizing v with
  | nil => simp
  | cons x l ih =>
    obtain ⟨hstage, hall⟩ := ih (visitCached setExclude v x)
    rw [List.foldl_cons, hstage, hall, List.toFinset_cons]
    refine ⟨rfl, ?_⟩
    rw [visitCached, Finset.insert_union, Finset.union_insert]

/-! ## One child -/

theorem visitChild_spec (hcache : CacheExact next setExclude cached) (hout : ∀ y ∉ setExclude, ∀ z ∈ next y, z ∉ setExclude)
    (h : Visiting next U start cached taken now v) (hcU : c ∈ U) (hreach : ∃ x ∈ start, Reach next x c) :
    Visiting next U start cached taken now (visitChild setExclude cached v c) ∧
      Handled cached (visitChild setExclude cached v c) c ∧
      v.setAllDescendants ⊆ (visitChild setExclude cached v c).setAllDescendants ∧
      v.stageEntries ⊆ (visitChild setExclude cached v c).stageEntries := by
  obtain ⟨x, hx, hxc⟩ := hreach
  unfold visitChild
  cases hE : cached[c]? with
  | some E =>
    dsimp only
    obtain ⟨hstage, hall⟩ := foldl_visitCached setExclude (E.sort (· ≤ ·)) v
    rw [Finset.sort_toFinset] at hall
    have hsub : v.setAllDescendants ⊆ ((E.sort (· ≤ ·)).foldl (visitCached setExclude) v).setAllDescendants := by
      rw [hall]
      exact Finset.subset_union_left
    have hEsub : E ⊆ ((E.sort (· ≤ ·)).foldl (visitCached setExclude) v).setAllDescendants := by
      rw [hall]
      exact Finset.subset_union_right
    refine ⟨⟨?_, ?_, h.taken.trans hsub, fun y hy => ?_, fun y hy => ?_, fun y hy hnow z hz => ?_⟩,
      .inr (.inr ⟨E, hE, hEsub⟩), hsub, hstage.ge⟩
    · rw [hstage]
      exact h.staged
    · rw [hstage]
      exact h.fresh
    · rw [hstage, hall, Finset.mem_union] at hy
      rcases hy with hy | hy | hy
      · exact h.sound y (.inl hy)
      · exact h.sound y (.inr hy)
      · exact ⟨x, hx, hxc.trans ((hcache.found c E hE y).1 hy).1⟩
    · rw [hstage]
      exact (h.start y hy).imp_right fun hy => hsub hy
    · rw [hall, Finset.mem_union] at hy
      rcases hy with hy | hy
      · exact (h.closed y hy hnow z hz).mono hsub hstage.ge
      · -- what the cache has leads nowhere else
        obtain ⟨hcy, hyX⟩ := (hcache.found c E hE y).1 hy
        exact .inl (hEsub ((hcache.found c E hE z).2 ⟨hcy.tail hz, hout y hyX z hz⟩))
  | none =>
    dsimp only
    by_cases hin : c ∈ v.setAllDescendants
    · rw [if_pos hin]
      exact ⟨h, .inl hin, Finset.Subset.refl _, Finset.Subset.refl _⟩
    · rw [if_neg hin]
      have hsub := Finset.subset_insert c v.stageEntries
      refine ⟨⟨Finset.insert_subset hcU h.staged, ?_, h.taken, fun y hy => ?_, fun y hy => ?_, fun y hy hnow z hz => ?_⟩,
        .inr (.inl (Finset.mem_insert_self c _)), Finset.Subset.refl _, hsub⟩
      · rw [Finset.disjoint_insert_left]
        exact ⟨fun hc => hin (h.taken hc), h.fresh⟩
      · rw [Finset.mem_insert] at hy
        rcases hy with (rfl | hy) | hy
        · exact ⟨x, hx, hxc⟩
        · exact h.sound y (.inl hy)
        · exact h.sound y (.inr hy)
      · exact (h.start y hy).imp_left fun hy => hsub hy
      · exact (h.closed y hy hnow z hz).mono (Finset.Subset.refl _) hsub

theorem visitChildren_spec (hcache : CacheExact next setExclude cached) (hout : ∀ y ∉ setExclude, ∀ z ∈ next y, z ∉ setExclude)
    (h : Visiting next U start cached taken now v) (hlU : ∀ c ∈ l, c ∈ U) (hreach : ∀ c ∈ l, ∃ x ∈ start, Reach next x c)
    (hv : visitChildren setExclude maxDescendantsToVisit cached l v = some v') :
    Visiting next U start cached taken now v' ∧ (∀ c ∈ l, Handled cached v' c) ∧
      v.setAllDescendants ⊆ v'.setAllDescendants ∧ v.stageEntries ⊆ v'.stageEntries := by
  induction l generalizing v with
  | nil =>
    cases hv
    exact ⟨h, fun c hc => (by cases hc), Finset.Subset.refl _, Finset.Subset.refl _⟩
  | cons c l ih =>
    obtain ⟨h', hhandled, hall, hstage⟩ := visitChild_spec hcache hout h (hlU c (by simp)) (hreach c (by simp))
    rw [visitChildren] at hv
    split at hv
    · cases hv
    · obtain ⟨hfinal, hrest, hall', hstage'⟩ :=
        ih h' (fun x hx => hlU x (List.mem_cons_of_mem c hx)) (fun x hx => hreach x (List.mem_cons_of_mem c hx)) hv
      refine ⟨hfinal, fun x hx => ?_, hall.trans hall', hstage.trans hstage'⟩
      rcases List.mem_cons.1 hx with rfl | hx
      · exact hhandled.mono hall' hstage'
      · exact hrest x hx

/-! ## The loop -/

theorem Visiting.take (h : Visiting next U start cached taken ∅ v) (hk : k ∈ v.stageEntries) :
    Visiting next U start cached (insert k taken) {k}
      { v with setAllDescendants := insert k v.setAllDescendants, stageEntries := v.stageEntries.erase k } where
  staged := (Finset.erase_subset k _).trans h.staged
  fresh := by
    rw [Finset.disjoint_insert_right]
    exact ⟨Finset.notMem_erase k _, h.fresh.mono_left (Finset.erase_subset k _)⟩
  taken := Finset.insert_subset_insert k h.taken
  sound y hy := by
    rcases hy with hy | hy
    · exact h.sound y (.inl (Finset.mem_of_mem_erase hy))
    · rcases Finset.mem_insert.1 hy with rfl | hy
      · exact h.sound y (.inl hk)
      · exact h.sound y (.inr hy)
  start x hx := by
    by_cases hxk : x = k
    · exact .inr (Finset.mem_insert.2 (.inl hxk))
    · exact (h.start x hx).imp (fun hx => Finset.mem_erase.2 ⟨hxk, hx⟩) fun hx => Finset.mem_insert_of_mem hx
  closed y hy hnow z hz := by
    have hyk : y ≠ k := fun heq => hnow (Finset.mem_singleton.2 heq)
    have hy := (Finset.mem_insert.1 hy).resolve_left hyk
    rcases h.closed y hy (Finset.notMem_empty y) z hz with hz | hz | ⟨E, hE, hsub⟩
    · exact .inl (Finset.mem_insert_of_mem hz)
    · by_cases hzk : z = k
      · exact .inl (Finset.mem_insert.2 (.inl hzk))
      · exact .inr (.inl (Finset.mem_erase.2 ⟨hzk, hz⟩))
    · exact .inr (.inr ⟨E, hE, hsub.trans (Finset.subset_insert k _)⟩)

theorem visitLoop_visiting (hnext : ∀ k ∈ U, s.getMemPoolChildren k ⊆ U)
    (hcache : CacheExact s.getMemPoolChildren setExclude cached)
    (hout : ∀ y ∉ setExclude, ∀ z ∈ s.getMemPoolChildren y, z ∉ setExclude)
    (h : Visiting s.getMemPoolChildren U start cached taken ∅ v) (hn : (U \ taken).card ≤ n)
    (hv : s.visitLoop setExclude maxDescendantsToVisit cached n v = some v') :
    v'.stageEntries = ∅ ∧ ∃ taken, Visiting s.getMemPoolChildren U start cached taken ∅ v' := by
  induction n generalizing v taken with
  | zero =>
    cases hv
    refine ⟨?_, taken, h⟩
    rw [Finset.eq_empty_iff_forall_notMem]
    intro x hx
    have hmem : x ∈ U \ taken := Finset.mem_sdiff.2 ⟨h.staged hx, Finset.disjoint_left.1 h.fresh hx⟩
    rw [Finset.card_eq_zero.1 (Nat.le_zero.1 hn)] at hmem
    exact absurd hmem (Finset.notMem_empty x)
  | succ n ih =>
    rw [visitLoop] at hv
    cases hbegin : begin? v.stageEntries with
    | none =>
      rw [hbegin] at hv
      cases hv
      exact ⟨eq_empty_of_begin? hbegin, taken, h⟩
    | some k =>
      rw [hbegin] at hv
      dsimp only at hv
      split at hv
      · cases hv
      · have hk := mem_of_begin? hbegin
        have hkU := h.staged hk
        obtain ⟨w, hw, hrest⟩ := Option.bind_eq_some_iff.1 hv
        obtain ⟨x, hx, hxk⟩ := h.sound k (.inl hk)
        obtain ⟨hvisiting, hhandled, -⟩ := visitChildren_spec hcache hout (h.take hk)
          (fun c hc => hnext k hkU ((Finset.mem_sort _).1 hc)) (fun c hc => ⟨x, hx, hxk.tail ((Finset.mem_sort _).1 hc)⟩) hw
        have hclosed : Visiting s.getMemPoolChildren U start cached (insert k taken) ∅ w :=
          { hvisiting with
            closed := fun y hy _ z hz => by
              by_cases hyk : y = k
              · exact hhandled z ((Finset.mem_sort _).2 (hyk ▸ hz))
              · exact hvisiting.closed y hy (fun hmem => hyk (Finset.mem_singleton.1 hmem)) z hz }
        have hcard : (U \ insert k taken).card ≤ n := by
          have hlt : (U \ insert k taken).card < (U \ taken).card := by
            apply Finset.card_lt_card
            refine ⟨Finset.sdiff_subset_sdiff (Finset.Subset.refl U) (Finset.subset_insert k taken), fun hsub => ?_⟩
            have hmem := hsub (Finset.mem_sdiff.2 ⟨hkU, Finset.disjoint_left.1 h.fresh hk⟩)
            exact (Finset.mem_sdiff.1 hmem).2 (Finset.mem_insert_self k taken)
          omega
        exact ih hclosed hcard hrest

/-- What is found and not excluded is what the children lead to and is not excluded. -/
theorem visitLoop_spec (hnext : ∀ k ∈ U, s.getMemPoolChildren k ⊆ U) (hcache : CacheExact s.getMemPoolChildren setExclude cached)
    (hout : ∀ y ∉ setExclude, ∀ z ∈ s.getMemPoolChildren y, z ∉ setExclude) (hstart : start ⊆ U) (hn : U.card ≤ n)
    (hv : s.visitLoop setExclude maxDescendantsToVisit cached n ⟨start, ∅, 0⟩ = some v) {y : Uint256} :
    y ∈ v.setAllDescendants \ setExclude ↔ (∃ x ∈ start, Reach s.getMemPoolChildren x y) ∧ y ∉ setExclude := by
  have hinit : Visiting s.getMemPoolChildren U start cached ∅ ∅ ⟨start, ∅, 0⟩ :=
    ⟨hstart, Finset.disjoint_empty_right start, Finset.empty_subset _,
      fun y hy => ⟨y, hy.resolve_right (Finset.notMem_empty y), .refl⟩,
      fun x hx => .inl hx, fun y hy => absurd hy (Finset.notMem_empty y)⟩
  obtain ⟨hempty, taken, h⟩ := visitLoop_visiting hnext hcache hout hinit ((Finset.card_le_card Finset.sdiff_subset).trans hn) hv
  have hfound {x : Uint256} (hx : x ∈ v.setAllDescendants) (hreach : Reach s.getMemPoolChildren x y) (hy : y ∉ setExclude) :
      y ∈ v.setAllDescendants := by
    induction hreach using Relation.ReflTransGen.head_induction_on with
    | refl => exact hx
    | head hstep hrest ih =>
      rcases h.closed _ hx (Finset.notMem_empty _) _ hstep with hz | hz | ⟨E, hE, hsub⟩
      · exact ih hz
      · rw [hempty] at hz
        exact absurd hz (Finset.notMem_empty _)
      · exact hsub ((hcache.found _ E hE y).2 ⟨hrest, hy⟩)
  rw [Finset.mem_sdiff]
  constructor
  · rintro ⟨hy, hyX⟩
    exact ⟨h.sound y (.inr hy), hyX⟩
  · rintro ⟨⟨x, hx, hreach⟩, hyX⟩
    have hxall : x ∈ v.setAllDescendants := by
      rcases h.start x hx with hx | hx
      · rw [hempty] at hx
        exact absurd hx (Finset.notMem_empty x)
      · exact hx
    exact ⟨hfound hxall hreach hyX, hyX⟩

end CTxMemPool

end Zumy.Mempool
