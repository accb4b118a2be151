/-
  Zumy.Lib.Tree — trees given by each node's parent.

  `Up parent a b`: `b` is `a` or an ancestor of it. `climb` walks up from a node until a
  test holds or the parents end; the nodes it passes come with the node it ends at.

  - `climb_isSome`: it ends within one turn more than the rank of its start, if the rank
    falls from each node to its parent.
  - `climb_covers`: an ancestor is passed or is an ancestor of the end.

  `ascend parent n a` is the `n`-th ancestor of `a`; `branch parent n a` lists the last `n`
  nodes of the way down to `a`, the highest ancestor first.

  - `branch_add`: a branch is its upper part and its lower part.
-/
import Mathlib.Data.List.Chain
import Mathlib.Logic.Relation

namespace Zumy.Lib

variable {α : Type*} {parent : α → Option α} {stop : α → Bool} {fuel : Nat} {a b c x : α} {o r : Option α} {l : List α}

def Up (parent : α → Option α) : α → α → Prop := Relation.ReflTransGen fun a b => parent a = some b

/-- `while (o && !stop(o)) o = parent(o)`, with the nodes that are passed. -/
def climb (parent : α → Option α) (stop : α → Bool) : Nat → Option α → Option (List α × Option α)
  | _, none => some ([], none)
  | 0, some a => if stop a then some ([], some a) else none
  | n + 1, some a => if stop a then some ([], some a) else (climb parent stop n (parent a)).map fun (l, r) => (a :: l, r)

/-- Within `S` each parent has a smaller rank. -/
def Ranked (parent : α → Option α) (rank : α → Nat) (S : α → Prop) : Prop :=
  ∀ a b, S a → parent a = some b → S b ∧ rank b < rank a

theorem Up.refl : Up parent a a := Relation.ReflTransGen.refl

theorem Up.trans (h : Up parent a b) (h' : Up parent b c) : Up parent a c := Relation.ReflTransGen.trans h h'

theorem Up.head (h' : Up parent b c) (h : parent a = some b) : Up parent a c := Relation.ReflTransGen.head h h'

theorem Up.single (h : parent a = some b) : Up parent a b := Relation.ReflTransGen.single h

theorem Up.cases (h : Up parent a c) : a = c ∨ ∃ b, parent a = some b ∧ Up parent b c :=
  Relation.ReflTransGen.cases_head h

theorem Up.closed {S : α → Prop} (hS : ∀ a b, S a → parent a = some b → S b) (h : Up parent a b) (ha : S a) : S b := by
  induction h with
  | refl => exact ha
  | tail _ hstep ih => exact hS _ _ ih hstep

theorem Up.mem_of_isChain (hl : l.IsChain fun a b => parent a = some b) (hlast : ∀ g ∈ l.getLast?, parent g = none)
    (h : Up parent a b)
    (ha : a ∈ l) : b ∈ l := by
  refine h.closed (S := (· ∈ l)) ?_ ha
  intro a b ha hb
  obtain ⟨pre, post, heq⟩ := List.append_of_mem ha
  have hpost : (a :: post).IsChain fun a b => parent a = some b := by
    rw [heq] at hl
    exact hl.right_of_append
  cases post with
  | nil =>
    rw [hlast a (by rw [heq, List.getLast?_concat]; rfl)] at hb
    cases hb
  | cons c post =>
    rw [List.isChain_cons_cons] at hpost
    rw [hpost.1] at hb
    cases hb
    simp [heq]

@[simp] theorem climb_none : climb parent stop fuel none = some ([], none) := by cases fuel <;> rfl

theorem climb_some (h : climb parent stop fuel (some a) = some (l, r)) :
    (stop a = true ∧ l = [] ∧ r = some a) ∨
      (stop a = false ∧ ∃ n l', fuel = n + 1 ∧ climb parent stop n (parent a) = some (l', r) ∧ l = a :: l') := by
  cases hstop : stop a with
  | true =>
    have hnow : climb parent stop fuel (some a) = some ([], some a) := by
      cases fuel <;> simp [climb, hstop]
    rw [hnow] at h
    cases h
    exact .inl ⟨rfl, rfl, rfl⟩
  | false =>
    cases fuel with
    | zero => simp [climb, hstop] at h
    | succ n =>
      simp only [climb, hstop, Bool.false_eq_true, if_false, Option.map_eq_some_iff] at h
      obtain ⟨⟨l', r'⟩, hrest, heq⟩ := h
      cases heq
      exact .inr ⟨rfl, n, l', rfl, hrest, rfl⟩

theorem climb_passed (h : climb parent stop fuel (some a) = some (l, r)) (hx : x ∈ l) : stop x = false ∧ Up parent a x := by
  induction fuel generalizing a l with
  | zero =>
    rcases climb_some h with ⟨-, rfl, -⟩ | ⟨-, n, l', hn, -⟩
    · cases hx
    · cases hn
  | succ n ih =>
    rcases climb_some h with ⟨-, rfl, -⟩ | ⟨hstop, m, l', hm, hrest, rfl⟩
    · cases hx
    · cases hm
      rcases List.mem_cons.1 hx with rfl | hx
      · exact ⟨hstop, .refl⟩
      · cases hp : parent a with
        | none =>
          rw [hp, climb_none] at hrest
          cases hrest
          cases hx
        | some b =>
          rw [hp] at hrest
          obtain ⟨hfalse, hup⟩ := ih hrest hx
          exact ⟨hfalse, hup.head hp⟩

/-- The end, if there is one, meets the test, and is above the start and what is passed. -/
theorem climb_end (h : climb parent stop fuel (some a) = some (l, some b)) :
    stop b = true ∧ Up parent a b ∧ ∀ x ∈ l, Up parent x b := by
  induction fuel generalizing a l with
  | zero =>
    rcases climb_some h with ⟨hstop, rfl, hr⟩ | ⟨-, n, l', hn, -⟩
    · cases hr
      exact ⟨hstop, .refl, nofun⟩
    · cases hn
  | succ n ih =>
    rcases climb_some h with ⟨hstop, rfl, hr⟩ | ⟨-, m, l', hm, hrest, rfl⟩
    · cases hr
      exact ⟨hstop, .refl, nofun⟩
    · cases hm
      cases hp : parent a with
      | none =>
        rw [hp, climb_none] at hrest
        cases hrest
      | some a' =>
        rw [hp] at hrest
        obtain ⟨hstop, hup, hall⟩ := ih hrest
        refine ⟨hstop, hup.head hp, fun x hx => ?_⟩
        rcases List.mem_cons.1 hx with rfl | hx
        · exact hup.head hp
        · exact hall x hx

theorem climb_covers (h : climb parent stop fuel (some a) = some (l, r)) (hx : Up parent a x) :
    x ∈ l ∨ ∃ b, r = some b ∧ Up parent b x := by
  induction fuel generalizing a l with
  | zero =>
    rcases climb_some h with ⟨-, rfl, hr⟩ | ⟨-, n, l', hn, -⟩
    · exact .inr ⟨a, hr, hx⟩
    · cases hn
  | succ n ih =>
    rcases climb_some h with ⟨-, rfl, hr⟩ | ⟨-, m, l', hm, hrest, rfl⟩
    · exact .inr ⟨a, hr, hx⟩
    · cases hm
      rcases hx.cases with rfl | ⟨b, hp, hup⟩
      · exact .inl (by simp)
      · rw [hp] at hrest
        exact (ih hrest hup).imp_left (List.mem_cons_of_mem a)

theorem exists_root {rank : α → Nat} {S : α → Prop} (hrank : Ranked parent rank S) (ha : S a) :
    ∃ g, Up parent a g ∧ S g ∧ parent g = none := by
  generalize hn : rank a = n
  induction n using Nat.strong_induction_on generalizing a with
  | _ n ih =>
    cases hp : parent a with
    | none => exact ⟨a, .refl, ha, hp⟩
    | some b =>
      obtain ⟨hb, hlt⟩ := hrank a b ha hp
      obtain ⟨g, hup, hg, hroot⟩ := ih (rank b) (hn ▸ hlt) hb rfl
      exact ⟨g, hup.head hp, hg, hroot⟩

theorem climb_isSome {rank : α → Nat} {S : α → Prop} (hrank : Ranked parent rank S) (ha : S a) (hfuel : rank a < fuel) :
    (climb parent stop fuel (some a)).isSome = true := by
  induction fuel generalizing a with
  | zero => omega
  | succ n ih =>
    cases hstop : stop a with
    | true => simp [climb, hstop]
    | false =>
      simp only [climb, hstop, Bool.false_eq_true, if_false, Option.isSome_map]
      cases hp : parent a with
      | none => rw [climb_none, Option.isSome_some]
      | some b =>
        obtain ⟨hb, hlt⟩ := hrank a b ha hp
        exact ih hb (by omega)

/-! ## As many parents up -/

/-- The `n`-th ancestor. -/
def ascend (parent : α → Option α) : Nat → α → Option α
  | 0, a => some a
  | n + 1, a => (parent a).bind (ascend parent n)

variable {n m : Nat}

theorem ascend_succ (h : parent a = some b) : ascend parent (n + 1) a = ascend parent n b := by
  rw [ascend, h, Option.bind_some]

theorem ascend_add (h : ascend parent n a = some b) : ascend parent (n + m) a = ascend parent m b := by
  induction n generalizing a with
  | zero =>
    cases h
    rw [Nat.zero_add]
  | succ n ih =>
    cases hp : parent a with
    | none =>
      rw [ascend, hp] at h
      cases h
    | some a' =>
      rw [ascend_succ hp] at h
      rw [Nat.add_right_comm, ascend_succ hp]
      exact ih h

theorem up_of_ascend (h : ascend parent n a = some b) : Up parent a b := by
  induction n generalizing a with
  | zero =>
    cases h
    exact .refl
  | succ n ih =>
    cases hp : parent a with
    | none =>
      rw [ascend, hp] at h
      cases h
    | some a' =>
      rw [ascend_succ hp] at h
      exact (ih h).head hp

theorem exists_ascend (h : Up parent a b) : ∃ n, ascend parent n a = some b := by
  induction h using Relation.ReflTransGen.head_induction_on with
  | refl => exact ⟨0, rfl⟩
  | head hp _ ih =>
    obtain ⟨n, hn⟩ := ih
    exact ⟨n + 1, by rw [ascend_succ hp, hn]⟩

/-- The last `n` nodes of the way down to a node. -/
def branch (parent : α → Option α) : Nat → α → List α
  | 0, _ => []
  | n + 1, a => (parent a).elim [] (branch parent n) ++ [a]

theorem branch_succ (h : parent a = some b) : branch parent (n + 1) a = branch parent n b ++ [a] := by
  rw [branch, h, Option.elim_some]

theorem branch_add (h : ascend parent m a = some b) : branch parent (n + m) a = branch parent n b ++ branch parent m a := by
  induction m generalizing a with
  | zero =>
    cases h
    rw [Nat.add_zero, branch, List.append_nil]
  | succ m ih =>
    cases hp : parent a with
    | none =>
      rw [ascend, hp] at h
      cases h
    | some a' =>
      rw [ascend_succ hp] at h
      rw [← Nat.add_assoc, branch_succ hp, branch_succ hp, ih h, List.append_assoc]

theorem mem_branch : x ∈ branch parent n a ↔ ∃ i < n, ascend parent i a = some x := by
  induction n generalizing a with
  | zero => simp [branch]
  | succ n ih =>
    constructor
    · intro hx
      rw [branch, List.mem_append, List.mem_singleton] at hx
      rcases hx with hx | rfl
      · cases hp : parent a with
        | none =>
          rw [hp] at hx
          cases hx
        | some b =>
          rw [hp, Option.elim_some, ih] at hx
          obtain ⟨i, hi, hup⟩ := hx
          exact ⟨i + 1, by omega, by rw [ascend_succ hp, hup]⟩
      · exact ⟨0, Nat.succ_pos n, rfl⟩
    · rintro ⟨i, hi, hup⟩
      rw [branch, List.mem_append, List.mem_singleton]
      cases i with
      | zero =>
        cases hup
        exact .inr rfl
      | succ i =>
        cases hp : parent a with
        | none =>
          rw [ascend, hp] at hup
          cases hup
        | some b =>
          rw [ascend_succ hp] at hup
          rw [Option.elim_some, ih]
          exact .inl ⟨i, by omega, hup⟩

end Zumy.Lib
