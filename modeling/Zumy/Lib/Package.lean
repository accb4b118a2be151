/-
  Zumy.Lib.Package — a node of a graph with all that it reaches, and the sum of their weights.

  - `packageSum_sink`, `packageSum_new`: a new node that reaches nothing is added to the
    packages of those that reach one of its parents, and is its own package.
  - `packageSum_remove`: where a package reaches out of a set of nodes only into the set,
    removing the set takes just its members' weights from the package.
  - `led_union`: to remove what two sets lead to is to remove what the first leads to, and
    then what is left of the second leads to.
-/
import Mathlib.Algebra.BigOperators.Group.Finset.Piecewise
import Mathlib.Data.Set.Basic
import Mathlib.Logic.Relation

namespace Zumy.Lib

variable {κ M : Type*} [AddCommGroup M] {edge edge' : κ → κ → Prop} {N S P : Finset κ} {w w' : κ → M} {a b d x : κ}

open scoped Classical in
noncomputable def package (edge : κ → κ → Prop) (N : Finset κ) (a : κ) : Finset κ := N.filter (Relation.ReflTransGen edge a)

noncomputable def packageSum (edge : κ → κ → Prop) (N : Finset κ) (w : κ → M) (a : κ) : M := ∑ d ∈ package edge N a, w d

open scoped Classical in
theorem mem_package : d ∈ package edge N a ↔ d ∈ N ∧ Relation.ReflTransGen edge a d := by
  unfold package
  exact Finset.mem_filter

open scoped Classical in
theorem packageSum_insert [DecidableEq κ] (edge : κ → κ → Prop) (w : κ → M) (a : κ) (hx : x ∉ N) :
    packageSum edge (insert x N) w a = (if Relation.ReflTransGen edge a x then w x else 0) + packageSum edge N w a := by
  have hout : x ∉ package edge N a := fun h => hx (mem_package.1 h).1
  by_cases hreach : Relation.ReflTransGen edge a x
  · have hpackage : package edge (insert x N) a = insert x (package edge N a) := by
      ext d
      rw [Finset.mem_insert, mem_package, mem_package, Finset.mem_insert]
      constructor
      · rintro ⟨rfl | hd, h⟩
        · exact .inl rfl
        · exact .inr ⟨hd, h⟩
      · rintro (rfl | ⟨hd, h⟩)
        · exact ⟨.inl rfl, hreach⟩
        · exact ⟨.inr hd, h⟩
    rw [packageSum, hpackage, Finset.sum_insert hout, if_pos hreach, packageSum]
  · have hpackage : package edge (insert x N) a = package edge N a := by
      ext d
      rw [mem_package, mem_package, Finset.mem_insert]
      constructor
      · rintro ⟨rfl | hd, h⟩
        · exact absurd h hreach
        · exact ⟨hd, h⟩
      · exact fun hd => ⟨.inr hd.1, hd.2⟩
    rw [packageSum, hpackage, if_neg hreach, zero_add, packageSum]

open scoped Classical in
theorem packageSum_reweight [DecidableEq κ] {m : M} (edge : κ → κ → Prop) (a : κ) (hx : x ∈ N)
    (hw : ∀ d, w' d = w d + if d = x then m else 0) :
    packageSum edge N w' a = packageSum edge N w a + if Relation.ReflTransGen edge a x then m else 0 := by
  have hmem : x ∈ package edge N a ↔ Relation.ReflTransGen edge a x := by
    rw [mem_package]
    exact and_iff_right hx
  rw [packageSum, Finset.sum_congr rfl fun d _ => hw d, Finset.sum_add_distrib, Finset.sum_ite_eq', packageSum]
  simp only [hmem]

/-! ## A new node -/

/-- `x` is new, below the nodes of `P`. -/
structure Sink (edge edge' : κ → κ → Prop) (N P : Finset κ) (x : κ) : Prop where
  new : x ∉ N
  within : ∀ a b, edge a b → a ∈ N ∧ b ∈ N
  parents : P ⊆ N
  edge : ∀ a b, edge' a b ↔ edge a b ∨ (b = x ∧ a ∈ P)

theorem Sink.reach (h : Sink edge edge' N P x) :
    Relation.ReflTransGen edge' a d ↔ Relation.ReflTransGen edge a d ∨ (d = x ∧ ∃ p ∈ P, Relation.ReflTransGen edge a p) := by
  constructor
  · intro hreach
    induction hreach with
    | refl => exact .inl .refl
    | tail _ hstep ih =>
      rcases ih with ih | ⟨rfl, -⟩
      · rcases (h.edge _ _).1 hstep with hstep | ⟨rfl, hp⟩
        · exact .inl (ih.tail hstep)
        · exact .inr ⟨rfl, _, hp, ih⟩
      · rcases (h.edge _ _).1 hstep with hstep | ⟨-, hp⟩
        · exact absurd (h.within _ _ hstep).1 h.new
        · exact absurd (h.parents hp) h.new
  · intro hreach
    rcases hreach with hreach | ⟨rfl, p, hp, hreach⟩
    · exact Relation.ReflTransGen.mono (fun a b hab => (h.edge a b).2 (.inl hab)) _ _ hreach
    · exact (Relation.ReflTransGen.mono (fun a b hab => (h.edge a b).2 (.inl hab)) _ _ hreach).tail ((h.edge p _).2 (.inr ⟨rfl, hp⟩))

open scoped Classical in
theorem packageSum_sink [DecidableEq κ] (h : Sink edge edge' N P x) (ha : a ∈ N) (hw : ∀ d ∈ N, w' d = w d) :
    packageSum edge' (insert x N) w' a = packageSum edge N w a + if ∃ p ∈ P, Relation.ReflTransGen edge a p then w' x else 0 := by
  have hold : ∑ d ∈ package edge N a, w' d = packageSum edge N w a :=
    Finset.sum_congr rfl fun d hd => hw d (mem_package.1 hd).1
  have hout : x ∉ package edge N a := fun hx => h.new (mem_package.1 hx).1
  by_cases hp : ∃ p ∈ P, Relation.ReflTransGen edge a p
  · have hpackage : package edge' (insert x N) a = insert x (package edge N a) := by
      ext d
      rw [mem_package, Finset.mem_insert, Finset.mem_insert, mem_package, h.reach]
      constructor
      · intro hd
        rcases hd with ⟨rfl | hd, hreach⟩
        · exact .inl rfl
        · rcases hreach with hreach | ⟨rfl, -⟩
          · exact .inr ⟨hd, hreach⟩
          · exact .inl rfl
      · intro hd
        rcases hd with rfl | ⟨hd, hreach⟩
        · exact ⟨.inl rfl, .inr ⟨rfl, hp⟩⟩
        · exact ⟨.inr hd, .inl hreach⟩
    unfold packageSum at hold ⊢
    rw [hpackage, Finset.sum_insert hout, hold, if_pos hp, add_comm]
  · have hpackage : package edge' (insert x N) a = package edge N a := by
      ext d
      rw [mem_package, Finset.mem_insert, mem_package, h.reach]
      constructor
      · intro hd
        have hreach := hd.2.resolve_right fun hr => hp hr.2
        rcases hd.1 with rfl | hd
        · rcases hreach.cases_tail with rfl | ⟨c, -, hstep⟩
          · exact ⟨ha, hreach⟩
          · exact absurd (h.within _ _ hstep).2 h.new
        · exact ⟨hd, hreach⟩
      · exact fun hd => ⟨.inr hd.1, .inl hd.2⟩
    unfold packageSum at hold ⊢
    rw [hpackage, hold, if_neg hp, add_zero]

theorem packageSum_new [DecidableEq κ] (h : Sink edge edge' N P x) : packageSum edge' (insert x N) w' x = w' x := by
  have hpackage : package edge' (insert x N) x = {x} := by
    ext d
    rw [mem_package, Finset.mem_singleton]
    constructor
    · intro hd
      rcases hd.2.cases_head with heq | ⟨c, hstep, -⟩
      · exact heq.symm
      · rcases (h.edge _ _).1 hstep with hstep | ⟨-, hp⟩
        · exact absurd (h.within _ _ hstep).1 h.new
        · exact absurd (h.parents hp) h.new
    · intro hd
      rw [hd]
      exact ⟨Finset.mem_insert_self x N, .refl⟩
  unfold packageSum
  rw [hpackage, Finset.sum_singleton]

/-! ## Removed nodes -/

/-- What the nodes of `S` that `a` reaches lead to is in `S`. -/
def LeavesWithin (edge : κ → κ → Prop) (S : Finset κ) (a : κ) : Prop :=
  ∀ s ∈ S, Relation.ReflTransGen edge a s → ∀ d, edge s d → d ∈ S

theorem reach_remove (hedge : ∀ a b, edge' a b ↔ edge a b ∧ a ∉ S ∧ b ∉ S) (ha : a ∉ S) (h : LeavesWithin edge S a) :
    Relation.ReflTransGen edge' a d ↔ Relation.ReflTransGen edge a d ∧ d ∉ S := by
  constructor
  · intro hreach
    induction hreach with
    | refl => exact ⟨.refl, ha⟩
    | tail _ hstep ih =>
      obtain ⟨hstep, -, hd⟩ := (hedge _ _).1 hstep
      exact ⟨ih.1.tail hstep, hd⟩
  · rintro ⟨hreach, hd⟩
    induction hreach with
    | refl => exact .refl
    | @tail b c hb hstep ih =>
      have hbS : b ∉ S := fun hb' => hd (h b hb' hb c hstep)
      exact (ih hbS).tail ((hedge b c).2 ⟨hstep, hbS, hd⟩)

theorem packageSum_remove [DecidableEq κ] (hedge : ∀ a b, edge' a b ↔ edge a b ∧ a ∉ S ∧ b ∉ S) (ha : a ∉ S)
    (h : LeavesWithin edge S a) (hS : S ⊆ N)
    (hw : ∀ d ∈ N, d ∉ S → w' d = w d) :
    packageSum edge' (N \ S) w' a = packageSum edge N w a - packageSum edge S w a := by
  have hpackage : package edge' (N \ S) a = package edge N a \ package edge S a := by
    ext d
    rw [mem_package, Finset.mem_sdiff, Finset.mem_sdiff, mem_package, mem_package, reach_remove hedge ha h]
    tauto
  have hsub : package edge S a ⊆ package edge N a := by
    intro s hs
    obtain ⟨hs, hreach⟩ := mem_package.1 hs
    exact mem_package.2 ⟨hS hs, hreach⟩
  unfold packageSum
  rw [hpackage, eq_sub_iff_add_eq, ← Finset.sum_sdiff hsub]
  congr 1
  refine Finset.sum_congr rfl fun d hd => ?_
  obtain ⟨hd, hout⟩ := Finset.mem_sdiff.1 hd
  obtain ⟨hN, hreach⟩ := mem_package.1 hd
  exact hw d hN fun hs => hout (mem_package.2 ⟨hs, hreach⟩)

/-! ## What a set leads to -/

section Led

variable {D E X Z : Set κ}

/-- The nodes that one of `X` reaches. -/
def led (edge : κ → κ → Prop) (X : Set κ) : Set κ := {d | ∃ x ∈ X, Relation.ReflTransGen edge x d}

/-- The edges that are left without `D`. -/
def outside (edge : κ → κ → Prop) (D : Set κ) (a b : κ) : Prop := edge a b ∧ a ∉ D ∧ b ∉ D

/-- No edge leads out of `D`. -/
def Closed (edge : κ → κ → Prop) (D : Set κ) : Prop := ∀ a b, edge a b → a ∈ D → b ∈ D

theorem closed_led (edge : κ → κ → Prop) (X : Set κ) : Closed edge (led edge X) := by
  rintro a b hstep ⟨x, hx, hreach⟩
  exact ⟨x, hx, hreach.tail hstep⟩

theorem led_empty : led edge (∅ : Set κ) = ∅ := by
  ext d
  simp [led]

theorem outside_empty : outside edge (∅ : Set κ) = edge := by
  funext a b
  simp [outside]

theorem outside_outside : outside (outside edge D) E = outside edge (D ∪ E) := by
  funext a b
  simp only [outside, Set.mem_union, not_or, eq_iff_iff]
  tauto

theorem Closed.notMem (h : Closed edge D) (hd : d ∉ D) (hreach : Relation.ReflTransGen edge a d) : a ∉ D := by
  induction hreach using Relation.ReflTransGen.head_induction_on with
  | refl => exact hd
  | head hstep _ ih => exact fun ha => ih (h _ _ hstep ha)

theorem Closed.reach_outside (h : Closed edge D) (hd : d ∉ D) :
    Relation.ReflTransGen (outside edge D) a d ↔ Relation.ReflTransGen edge a d := by
  constructor
  · exact Relation.ReflTransGen.mono (fun _ _ hstep => hstep.1) _ _
  · intro hreach
    induction hreach using Relation.ReflTransGen.head_induction_on with
    | refl => exact .refl
    | head hstep hrest ih => exact .head ⟨hstep, h.notMem hd (.head hstep hrest), h.notMem hd hrest⟩ ih

theorem led_union : led edge (X ∪ Z) = led edge X ∪ led (outside edge (led edge X)) (Z \ led edge X) := by
  have hclosed := closed_led edge X
  ext d
  constructor
  · rintro ⟨x, hx | hx, hreach⟩
    · exact .inl ⟨x, hx, hreach⟩
    · by_cases hd : d ∈ led edge X
      · exact .inl hd
      · exact .inr ⟨x, ⟨hx, hclosed.notMem hd hreach⟩, (hclosed.reach_outside hd).2 hreach⟩
  · rintro (⟨x, hx, hreach⟩ | ⟨x, hx, hreach⟩)
    · exact ⟨x, .inl hx, hreach⟩
    · exact ⟨x, .inr hx.1, Relation.ReflTransGen.mono (fun _ _ hstep => hstep.1) _ _ hreach⟩

theorem Closed.union (h : Closed edge D) (h' : Closed (outside edge D) E) : Closed edge (D ∪ E) := by
  rintro a b hstep (ha | ha)
  · exact .inl (h a b hstep ha)
  · by_cases haD : a ∈ D
    · exact .inl (h a b hstep haD)
    by_cases hbD : b ∈ D
    · exact .inl hbD
    · exact .inr (h' a b ⟨hstep, haD, hbD⟩ ha)

end Led

end Zumy.Lib
