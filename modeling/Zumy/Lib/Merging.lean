/-
  Zumy.Lib.Merging — sets that meet are merged, one new set after another.

  The merged sets are objects with an identity, as a program keeps them behind pointers:
  `setmap` gives each element its object, and a set that was merged into another one is
  deleted. An identity can be given again once its object is deleted; to use one that is
  deleted is `none`.

  - `mergeAll_spec`: the sets at the end part the elements by the chains of sets that link them.
-/
import Zumy.Lib.Run
import Mathlib.Data.Finset.Option
import Mathlib.Data.Finset.Union

namespace Zumy.Lib

variable {α : Type*} [DecidableEq α]

structure Merging (α : Type*) where
  heap : Nat → Option (Finset α)
  unique : Finset Nat
  setmap : α → Option Nat

namespace Merging

def hits (m : Merging α) (g : Finset α) : Finset Nat := g.biUnion fun a => (m.setmap a).toFinset

def content (m : Merging α) (i : Nat) : Finset α := (m.heap i).getD ∅

def merged (m : Merging α) (g : Finset α) : Finset α := g ∪ (m.hits g).biUnion m.content

/-- The new set takes in those that it meets; `none` if one of them is deleted. `alloc` gives an identity that
is not in use. -/
def step (alloc : Finset Nat → Nat) (m : Merging α) (g : Finset α) : Option (Merging α) :=
  if ∀ i ∈ m.hits g, (m.heap i).isSome then
    let p := alloc m.unique
    some ⟨fun i => if i = p then some (m.merged g) else if i ∈ m.hits g then none else m.heap i,
      insert p (m.unique \ m.hits g), fun a => if a ∈ m.merged g then some p else m.setmap a⟩
  else none

def mergeAll (alloc : Finset Nat → Nat) (gs : List (Finset α)) : Option (Finset (Finset α)) :=
  (run (step alloc) ⟨fun _ => none, ∅, fun _ => none⟩ gs).bind fun m =>
    if ∀ i ∈ m.unique, (m.heap i).isSome then some (m.unique.image m.content) else none

def Linked (gs : List (Finset α)) : α → α → Prop := Relation.EqvGen fun a b => ∃ g ∈ gs, a ∈ g ∧ b ∈ g

/-- The objects are alive, and those of the elements of the sets so far; linked elements have the same one. -/
structure Inv (gs : List (Finset α)) (m : Merging α) : Prop where
  alive : ∀ i, i ∈ m.unique ↔ (m.heap i).isSome
  content : ∀ a i, a ∈ m.content i ↔ m.setmap a = some i
  cover : ∀ a, (m.setmap a).isSome ↔ ∃ g ∈ gs, a ∈ g
  linked : ∀ a b, (m.setmap a).isSome → (m.setmap a = m.setmap b ↔ Linked gs a b)
  nonempty : ∀ i ∈ m.unique, (m.content i).Nonempty

variable {alloc : Finset Nat → Nat} {gs : List (Finset α)} {m : Merging α} {g : Finset α} {a b : α} {i : Nat}

omit [DecidableEq α] in
theorem Linked.cons (h : Linked gs a b) (g : Finset α) : Linked (g :: gs) a b := by
  refine Relation.EqvGen.mono ?_ a b h
  intro a b hab
  obtain ⟨g', hg', hab⟩ := hab
  exact ⟨g', List.mem_cons_of_mem _ hg', hab⟩

omit [DecidableEq α] in
theorem mem_hits : i ∈ m.hits g ↔ ∃ a ∈ g, m.setmap a = some i := by
  simp [hits, eq_comm]

omit [DecidableEq α] in
theorem isSome_of_mem_content (h : a ∈ m.content i) : (m.heap i).isSome := by
  unfold content at h
  cases hheap : m.heap i with
  | none =>
    rw [hheap] at h
    cases h
  | some s => rfl

theorem Inv.mem_merged (h : Inv gs m) : a ∈ m.merged g ↔ a ∈ g ∨ ∃ b ∈ g, m.setmap b = m.setmap a ∧ (m.setmap a).isSome := by
  rw [merged, Finset.mem_union, Finset.mem_biUnion]
  refine or_congr_right ?_
  constructor
  · intro hex
    obtain ⟨i, hi, ha⟩ := hex
    obtain ⟨b, hb, hbi⟩ := mem_hits.1 hi
    have hai := (h.content a i).1 ha
    exact ⟨b, hb, hbi.trans hai.symm, by rw [hai]; rfl⟩
  · intro hex
    obtain ⟨b, hb, heq, hsome⟩ := hex
    obtain ⟨i, hi⟩ := Option.isSome_iff_exists.1 hsome
    exact ⟨i, mem_hits.2 ⟨b, hb, heq.trans hi⟩, (h.content a i).2 hi⟩

theorem Inv.merged_congr (h : Inv gs m) (hsame : m.setmap a = m.setmap b) (hsome : (m.setmap a).isSome)
    (ha : a ∈ m.merged g) : b ∈ m.merged g := by
  rw [h.mem_merged] at ha ⊢
  obtain ha | ⟨c, hc, heq, -⟩ := ha
  · exact .inr ⟨a, ha, hsame, hsame ▸ hsome⟩
  · exact .inr ⟨c, hc, heq.trans hsame, hsame ▸ hsome⟩

/-- One more set: the induction over a chain is in `linked`, where the sets before keep their elements together. -/
theorem Inv.step (halloc : ∀ live, alloc live ∉ live) (h : Inv gs m) (hg : g.Nonempty) :
    ∃ m', m.step alloc g = some m' ∧ Inv (g :: gs) m' := by
  have hlive : ∀ i ∈ m.hits g, (m.heap i).isSome := by
    intro i hi
    obtain ⟨a, -, ha⟩ := mem_hits.1 hi
    exact isSome_of_mem_content ((h.content a i).2 ha)
  have hnew : ∀ a, m.setmap a ≠ some (alloc m.unique) := by
    intro a ha
    exact halloc m.unique ((h.alive _).2 (isSome_of_mem_content ((h.content a _).2 ha)))
  have hsome_of_old {a : α} (hout : a ∉ m.merged g) {i : Nat} (ha : m.setmap a = some i) : i ∉ m.hits g := by
    intro hi
    obtain ⟨b, hb, hbi⟩ := mem_hits.1 hi
    exact hout (h.mem_merged.2 (.inr ⟨b, hb, hbi.trans ha.symm, by rw [ha]; rfl⟩))
  refine ⟨_, if_pos hlive, ?_, ?_, ?_, ?_, ?_⟩
  · intro i
    dsimp only
    rw [Finset.mem_insert, Finset.mem_sdiff, h.alive]
    by_cases hp : i = alloc m.unique
    · simp [hp]
    · by_cases hi : i ∈ m.hits g <;> simp [hp, hi]
  · intro a i
    unfold Merging.content
    dsimp only
    by_cases hp : i = alloc m.unique
    · subst hp
      by_cases ha : a ∈ m.merged g
      · simp [ha]
      · simp [ha, hnew a]
    · by_cases hi : i ∈ m.hits g
      · rw [if_neg hp, if_pos hi]
        by_cases ha : a ∈ m.merged g
        · simp [ha, Ne.symm hp]
        · simpa [ha] using fun hai => hsome_of_old ha hai hi
      · rw [if_neg hp, if_neg hi]
        have hold := h.content a i
        unfold Merging.content at hold
        rw [hold]
        by_cases ha : a ∈ m.merged g
        · rw [if_pos ha]
          refine ⟨fun hai => absurd ?_ hi, fun hpi => absurd (Option.some.inj hpi).symm hp⟩
          obtain hag | ⟨b, hb, heq, -⟩ := h.mem_merged.1 ha
          · exact mem_hits.2 ⟨a, hag, hai⟩
          · exact mem_hits.2 ⟨b, hb, heq.trans hai⟩
        · rw [if_neg ha]
  · intro a
    dsimp only
    rw [List.exists_mem_cons_iff, ← h.cover]
    by_cases ha : a ∈ m.merged g
    · rw [if_pos ha]
      obtain hag | ⟨b, -, -, hsome⟩ := h.mem_merged.1 ha
      · simp [hag]
      · simp [hsome]
    · rw [if_neg ha]
      have hag : a ∉ g := fun hag => ha (h.mem_merged.2 (.inl hag))
      simp [hag]
  · intro a b hsome
    dsimp only at hsome ⊢
    constructor
    · intro heq
      obtain ⟨g₀, hg₀⟩ := hg
      -- every merged element is linked to each element of the new set
      have hto (c : α) (hc : c ∈ m.merged g) : Linked (g :: gs) c g₀ := by
        obtain hcg | ⟨d, hd, hdc, hsome⟩ := h.mem_merged.1 hc
        · exact .rel _ _ ⟨g, List.mem_cons_self, hcg, hg₀⟩
        · have hcd := ((h.linked c d hsome).1 hdc.symm).cons g
          exact hcd.trans _ _ _ (.rel _ _ ⟨g, List.mem_cons_self, hd, hg₀⟩)
      by_cases ha : a ∈ m.merged g
      · by_cases hb : b ∈ m.merged g
        · exact (hto a ha).trans _ _ _ ((hto b hb).symm _ _)
        · rw [if_pos ha, if_neg hb] at heq
          exact absurd heq.symm (hnew b)
      · by_cases hb : b ∈ m.merged g
        · rw [if_neg ha, if_pos hb] at heq
          exact absurd heq (hnew a)
        · rw [if_neg ha] at hsome
          rw [if_neg ha, if_neg hb] at heq
          exact ((h.linked a b hsome).1 heq).cons g
    · intro hlinked
      clear hsome
      induction hlinked with
      | rel a b hab =>
        obtain ⟨g', hg', ha, hb⟩ := hab
        obtain rfl | hg' := List.mem_cons.1 hg'
        · rw [if_pos (h.mem_merged.2 (.inl ha)), if_pos (h.mem_merged.2 (.inl hb))]
        · have hsa : (m.setmap a).isSome := (h.cover a).2 ⟨g', hg', ha⟩
          have hsame := (h.linked a b hsa).2 (.rel _ _ ⟨g', hg', ha, hb⟩)
          by_cases hma : a ∈ m.merged g
          · rw [if_pos hma, if_pos (h.merged_congr hsame hsa hma)]
          · rw [if_neg hma, if_neg fun hmb => hma (h.merged_congr hsame.symm (hsame ▸ hsa) hmb), hsame]
      | refl a => rfl
      | symm a b _ ih => exact ih.symm
      | trans a b c _ _ ihab ihbc => exact ihab.trans ihbc
  · intro i hi
    unfold Merging.content
    dsimp only at hi ⊢
    by_cases hp : i = alloc m.unique
    · rw [if_pos hp]
      exact hg.mono Finset.subset_union_left
    · obtain ⟨hu, hn⟩ := Finset.mem_sdiff.1 ((Finset.mem_insert.1 hi).resolve_left hp)
      rw [if_neg hp, if_neg hn]
      exact h.nonempty i hu

theorem Inv.run {gs done : List (Finset α)} {m : Merging α} (halloc : ∀ live, alloc live ∉ live)
    (h : Inv done m) (hgs : ∀ g ∈ gs, g.Nonempty) :
    ∃ m', Lib.run (Merging.step alloc) m gs = some m' ∧ Inv (gs.reverse ++ done) m' := by
  induction gs generalizing m done with
  | nil => exact ⟨m, rfl, h⟩
  | cons g gs ih =>
    obtain ⟨m₁, hstep, h₁⟩ := h.step halloc (hgs g List.mem_cons_self)
    obtain ⟨m', hrun, h'⟩ := ih h₁ fun g' hg' => hgs g' (List.mem_cons_of_mem _ hg')
    refine ⟨m', ?_, ?_⟩
    · rw [run_cons, hstep]
      exact hrun
    · rw [List.reverse_cons, List.append_assoc]
      exact h'

omit [DecidableEq α] in
theorem inv_nil : Inv [] (⟨fun _ => none, ∅, fun _ => none⟩ : Merging α) where
  alive i := by simp
  content a i := by simp [Merging.content]
  cover a := by simp
  linked a b h := by cases h
  nonempty i hi := by simp at hi

theorem mergeAll_spec (halloc : ∀ live, alloc live ∉ live) (hgs : ∀ g ∈ gs, g.Nonempty) :
    ∃ ret, mergeAll alloc gs = some ret ∧ ∅ ∉ ret ∧ (∀ s ∈ ret, ∀ t ∈ ret, s ≠ t → Disjoint s t) ∧
      (∀ a, (∃ s ∈ ret, a ∈ s) ↔ ∃ g ∈ gs, a ∈ g) ∧
      ∀ a b, (∃ s ∈ ret, a ∈ s ∧ b ∈ s) ↔ (∃ g ∈ gs, a ∈ g) ∧ Linked gs a b := by
  obtain ⟨m, hrun, h⟩ := Inv.run halloc inv_nil hgs
  rw [List.append_nil] at h
  have hcover (a : α) : (m.setmap a).isSome ↔ ∃ g ∈ gs, a ∈ g := by
    simpa only [List.mem_reverse] using h.cover a
  have hmem (a : α) (i : Nat) (ha : m.setmap a = some i) : i ∈ m.unique :=
    (h.alive i).2 (isSome_of_mem_content ((h.content a i).2 ha))
  refine ⟨m.unique.image m.content, ?_, ?_, ?_, ?_, ?_⟩
  · rw [mergeAll, hrun]
    exact if_pos fun i hi => (h.alive i).1 hi
  · intro hempty
    obtain ⟨i, hi, heq⟩ := Finset.mem_image.1 hempty
    exact (h.nonempty i hi).ne_empty heq
  · intro s hs t ht hne
    obtain ⟨i, -, rfl⟩ := Finset.mem_image.1 hs
    obtain ⟨j, -, rfl⟩ := Finset.mem_image.1 ht
    refine Finset.disjoint_left.2 fun a hai haj => hne ?_
    rw [h.content] at hai haj
    rw [Option.some.inj (hai.symm.trans haj)]
  · intro a
    rw [← hcover]
    constructor
    · intro hex
      obtain ⟨s, hs, ha⟩ := hex
      obtain ⟨i, -, rfl⟩ := Finset.mem_image.1 hs
      rw [(h.content a i).1 ha]
      rfl
    · intro hsome
      obtain ⟨i, hi⟩ := Option.isSome_iff_exists.1 hsome
      exact ⟨_, Finset.mem_image_of_mem _ (hmem a i hi), (h.content a i).2 hi⟩
  · intro a b
    have hlinked : Linked gs.reverse a b ↔ Linked gs a b := by simp only [Linked, List.mem_reverse]
    rw [← hcover, ← hlinked]
    constructor
    · intro hex
      obtain ⟨s, hs, ha, hb⟩ := hex
      obtain ⟨i, -, rfl⟩ := Finset.mem_image.1 hs
      rw [h.content] at ha hb
      have hsome : (m.setmap a).isSome := by
        rw [ha]
        rfl
      exact ⟨hsome, (h.linked a b hsome).1 (ha.trans hb.symm)⟩
    · intro hand
      obtain ⟨hsome, hl⟩ := hand
      obtain ⟨i, hi⟩ := Option.isSome_iff_exists.1 hsome
      have hb := ((h.linked a b hsome).2 hl).symm.trans hi
      exact ⟨_, Finset.mem_image_of_mem _ (hmem a i hi), (h.content a i).2 hi, (h.content b i).2 hb⟩

theorem subset_of_classes {ret ret' : Finset (Finset α)} (hempty : ∅ ∉ ret) (h : ∀ s ∈ ret, ∀ t ∈ ret, s ≠ t → Disjoint s t)
    (h' : ∀ s ∈ ret', ∀ t ∈ ret', s ≠ t → Disjoint s t)
    (hsame : ∀ a b, (∃ s ∈ ret, a ∈ s ∧ b ∈ s) ↔ ∃ s ∈ ret', a ∈ s ∧ b ∈ s) : ret ⊆ ret' := by
  have hclass {ret : Finset (Finset α)} (h : ∀ s ∈ ret, ∀ t ∈ ret, s ≠ t → Disjoint s t) {s : Finset α} (hs : s ∈ ret)
      {a : α} (ha : a ∈ s) (b : α) : b ∈ s ↔ ∃ t ∈ ret, a ∈ t ∧ b ∈ t := by
    refine ⟨fun hb => ⟨s, hs, ha, hb⟩, fun hex => ?_⟩
    obtain ⟨t, ht, hat, hbt⟩ := hex
    by_cases hst : s = t
    · exact hst ▸ hbt
    · exact absurd hat (Finset.disjoint_left.1 (h s hs t ht hst) ha)
  intro s hs
  obtain ⟨a, ha⟩ := Finset.nonempty_iff_ne_empty.2 fun hnil => hempty (hnil ▸ hs)
  obtain ⟨t, ht, hat, -⟩ := (hsame a a).1 ⟨s, hs, ha, ha⟩
  have heq : s = t := by
    ext b
    rw [hclass h hs ha, hsame, ← hclass h' ht hat]
  exact heq ▸ ht

/-- Neither the order of the sets nor the identities they are given are seen in the end. -/
theorem mergeAll_congr {alloc' : Finset Nat → Nat} {gs' : List (Finset α)} (halloc : ∀ live, alloc live ∉ live)
    (halloc' : ∀ live, alloc' live ∉ live) (hgs : ∀ g ∈ gs, g.Nonempty) (hmem : ∀ g, g ∈ gs ↔ g ∈ gs') :
    mergeAll alloc gs = mergeAll alloc' gs' := by
  obtain ⟨ret, hret, hempty, hdisjoint, -, hsame⟩ := mergeAll_spec halloc hgs
  obtain ⟨ret', hret', hempty', hdisjoint', -, hsame'⟩ := mergeAll_spec halloc' fun g hg => hgs g ((hmem g).2 hg)
  have hclasses (a b : α) : (∃ s ∈ ret, a ∈ s ∧ b ∈ s) ↔ ∃ s ∈ ret', a ∈ s ∧ b ∈ s := by
    rw [hsame, hsame']
    simp only [Linked, hmem]
  rw [hret, hret', Finset.Subset.antisymm (subset_of_classes hempty hdisjoint hdisjoint' hclasses)
    (subset_of_classes hempty' hdisjoint' hdisjoint fun a b => (hclasses a b).symm)]

end Merging

end Zumy.Lib
