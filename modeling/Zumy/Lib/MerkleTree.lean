/-
  Zumy.Lib.MerkleTree — hash trees over a list of any length, where a node without a right
  sibling is its own.

  `parents` is the level above a list of nodes, `pairs` the part of it that has two children.
  `Flagged`: somewhere in the tree two whole siblings are equal. `below` is the part of a list
  under a node.

  Where a hash determines what it is of and a leaf is no hash:

  - `flagged_of_parents`: a list whose parents are flagged is flagged.
-/
import Mathlib.Algebra.Order.Ring.Nat
import Mathlib.Data.List.Induction
import Mathlib.Logic.Function.Iterate

namespace Zumy.Lib.MerkleTree

variable {α : Type*} {hash : α → α → α} {l l' m : List α} {x y z r : α} {j k d d' n : Nat}

variable (hash) in
def pairs : List α → List α
  | x :: y :: l => hash x y :: pairs l
  | _ => []

variable (hash) in
def parents : List α → List α
  | x :: y :: l => hash x y :: parents l
  | [x] => [hash x x]
  | [] => []

def Twins : List α → Prop
  | x :: y :: l => x = y ∨ Twins l
  | _ => False

variable (hash) in
def Flagged (l : List α) : Prop := ∃ k, Twins ((pairs hash)^[k] l)

/-! ## Levels -/

@[simp] theorem length_pairs (l : List α) : (pairs hash l).length = l.length / 2 := by
  fun_induction pairs hash l with
  | case1 x y l ih =>
    simp only [List.length_cons, ih]
    omega
  | case2 l h =>
    match l, h with
    | [], _ => simp
    | [x], _ => simp
    | x :: y :: l, h => exact absurd rfl (h x y l)

@[simp] theorem length_parents (l : List α) : (parents hash l).length = (l.length + 1) / 2 := by
  fun_induction parents hash l with
  | case1 x y l ih =>
    simp only [List.length_cons, ih]
    omega
  | case2 x => simp
  | case3 => simp

variable (hash) in
theorem length_pairs_iterate (l : List α) (k : Nat) : ((pairs hash)^[k] l).length = l.length / 2 ^ k := by
  induction k with
  | zero => simp
  | succ k ih => rw [Function.iterate_succ_apply', length_pairs, ih, Nat.div_div_eq_div_mul, pow_succ]

theorem even_tail (h : (x :: y :: l).length % 2 = 0) : l.length % 2 = 0 := by
  rw [List.length_cons, List.length_cons] at h
  omega

theorem pairs_append (h : l.length % 2 = 0) (l' : List α) : pairs hash (l ++ l') = pairs hash l ++ pairs hash l' := by
  induction l using List.twoStepInduction with
  | nil => rfl
  | singleton x => simp at h
  | cons_cons x y l ih _ =>
    rw [List.cons_append, List.cons_append, pairs, pairs, ih (even_tail h), List.cons_append]

theorem parents_append (h : l.length % 2 = 0) (l' : List α) : parents hash (l ++ l') = pairs hash l ++ parents hash l' := by
  induction l using List.twoStepInduction with
  | nil => rfl
  | singleton x => simp at h
  | cons_cons x y l ih _ =>
    rw [List.cons_append, List.cons_append, parents, pairs, ih (even_tail h), List.cons_append]

theorem twins_append (h : l.length % 2 = 0) (l' : List α) : Twins (l ++ l') ↔ Twins l ∨ Twins l' := by
  induction l using List.twoStepInduction with
  | nil => simp [Twins]
  | singleton x => simp at h
  | cons_cons x y l ih _ =>
    rw [List.cons_append, List.cons_append, Twins, Twins, ih (even_tail h), or_assoc]

theorem parents_eq_pairs (h : l.length % 2 = 0) : parents hash l = pairs hash l := by
  have hsplit : parents hash (l ++ []) = pairs hash l ++ parents hash [] := parents_append h []
  rwa [List.append_nil, parents, List.append_nil] at hsplit

theorem exists_snoc (h : l.length % 2 = 1) : ∃ m x, l = m ++ [x] ∧ m.length % 2 = 0 := by
  rcases List.eq_nil_or_concat l with rfl | ⟨m, x, rfl⟩
  · simp at h
  · refine ⟨m, x, by simp, ?_⟩
    rw [List.concat_eq_append, List.length_append, List.length_singleton] at h
    omega

/-! ## Below a node -/

/-- What of a list is below the node at `pos` of level `k` of the tree over it. -/
def below (k pos : Nat) (l : List α) : List α := (l.drop (pos * 2 ^ k)).take (2 ^ k)

theorem mem_below {pos : Nat} : x ∈ below k pos l ↔ ∃ i, i / 2 ^ k = pos ∧ l[i]? = some x := by
  have hpos := Nat.two_pow_pos k
  rw [below, List.mem_iff_getElem?]
  constructor
  · intro h
    obtain ⟨i, hi⟩ := h
    rw [List.getElem?_take] at hi
    split at hi
    · rename_i hlt
      rw [List.getElem?_drop] at hi
      refine ⟨pos * 2 ^ k + i, ?_, hi⟩
      rw [Nat.mul_comm, Nat.mul_add_div hpos, Nat.div_eq_of_lt hlt, Nat.add_zero]
    · cases hi
  · intro h
    obtain ⟨i, hi, hx⟩ := h
    refine ⟨i % 2 ^ k, ?_⟩
    rw [List.getElem?_take, if_pos (Nat.mod_lt i hpos), List.getElem?_drop, ← hi, Nat.mul_comm, Nat.div_add_mod]
    exact hx

theorem below_zero (pos : Nat) (h : l[pos]? = some x) : below 0 pos l = [x] := by
  obtain ⟨hlt, rfl⟩ := List.getElem?_eq_some_iff.1 h
  rw [below, pow_zero, Nat.mul_one, List.take_one, List.head?_drop, List.getElem?_eq_getElem hlt]
  rfl

theorem below_succ (k pos : Nat) (l : List α) : below (k + 1) pos l = below k (2 * pos) l ++ below k (2 * pos + 1) l := by
  have hleft : pos * 2 ^ (k + 1) = 2 * pos * 2 ^ k := by
    rw [pow_succ, Nat.mul_comm (2 ^ k) 2, ← Nat.mul_assoc, Nat.mul_comm pos 2]
  have hright : 2 * pos * 2 ^ k + 2 ^ k = (2 * pos + 1) * 2 ^ k := (Nat.succ_mul _ _).symm
  have hwidth : 2 ^ (k + 1) = 2 ^ k + 2 ^ k := by rw [pow_succ, Nat.mul_two]
  rw [below, below, below, hleft, hwidth, List.take_add, List.drop_drop, hright]

theorem below_eq_nil {pos : Nat} (h : l.length ≤ pos * 2 ^ k) : below k pos l = [] := by
  rw [below, List.drop_eq_nil_of_le h, List.take_nil]

theorem length_below_pos {pos : Nat} (h : pos * 2 ^ k < l.length) : 0 < (below k pos l).length := by
  rw [below, List.length_take, List.length_drop]
  have := Nat.two_pow_pos k
  omega

theorem below_root (h : l.length ≤ 2 ^ k) : below k 0 l = l := by
  rw [below, Nat.zero_mul, List.drop_zero, List.take_of_length_le h]

/-! ## Flags -/

theorem flagged_iff : Flagged hash l ↔ Twins l ∨ Flagged hash (pairs hash l) := by
  constructor
  · rintro ⟨k, hk⟩
    cases k with
    | zero => exact .inl hk
    | succ k => exact .inr ⟨k, hk⟩
  · rintro (h | ⟨k, hk⟩)
    · exact ⟨0, h⟩
    · exact ⟨k + 1, hk⟩

theorem twins_of_getElem? {i : Nat} (h : l[2 * i]? = some x) (h' : l[2 * i + 1]? = some x) : Twins l := by
  induction i generalizing l with
  | zero =>
    match l with
    | [] => cases h
    | [y] => cases h'
    | y :: z :: l =>
      cases h
      cases h'
      exact .inl rfl
  | succ i ih =>
    match l with
    | [] => cases h
    | [y] => cases h'
    | y :: z :: l => exact .inr (ih h h')

theorem not_flagged_nil : ¬ Flagged hash ([] : List α) := by
  rintro ⟨k, hk⟩
  have hnil : (pairs hash)^[k] ([] : List α) = [] := Function.iterate_fixed rfl k
  rw [hnil] at hk
  exact hk

theorem flagged_snoc_even (h : l.length % 2 = 0) (z : α) : Flagged hash (l ++ [z]) ↔ Flagged hash l := by
  have htwins : Twins (l ++ [z]) ↔ Twins l := by
    rw [twins_append h]
    exact or_iff_left id
  rw [flagged_iff, flagged_iff (l := l), htwins, pairs_append h]
  simp only [pairs, List.append_nil]

theorem flagged_snoc_snoc (h : l.length % 2 = 0) (y z : α) :
    Flagged hash (l ++ [y] ++ [z]) ↔ Twins l ∨ y = z ∨ Flagged hash (pairs hash l ++ [hash y z]) := by
  have htwins : Twins [y, z] ↔ y = z := or_iff_left id
  rw [List.append_assoc, List.singleton_append, flagged_iff, twins_append h, pairs_append h, htwins, or_assoc]
  rfl

theorem Flagged.snoc (h : Flagged hash l) (z : α) : Flagged hash (l ++ [z]) := by
  induction hn : l.length using Nat.strongRecOn generalizing l z with
  | _ n ih =>
    subst hn
    rcases Nat.mod_two_eq_zero_or_one l.length with heven | hodd
    · exact (flagged_snoc_even heven z).2 h
    · obtain ⟨m, y, rfl, hm⟩ := exists_snoc hodd
      rw [flagged_snoc_snoc hm]
      rw [flagged_snoc_even hm, flagged_iff] at h
      refine h.imp_right fun hpairs => .inr (ih _ ?_ hpairs (hash y z) rfl)
      rw [length_pairs, List.length_append, List.length_singleton]
      omega

section Injective

variable (hinj : Function.Injective2 hash)

include hinj

theorem mem_of_mem_pairs (h : hash x y ∈ pairs hash l) : y ∈ l := by
  fun_induction pairs hash l with
  | case1 a b l ih =>
    rcases List.mem_cons.1 h with h | h
    · obtain ⟨-, rfl⟩ := hinj h
      simp
    · simp [ih h]
  | case2 l => cases h

theorem twins_of_mem_pairs (h : hash x x ∈ pairs hash l) : Twins l := by
  fun_induction pairs hash l with
  | case1 a b l ih =>
    rcases List.mem_cons.1 h with h | h
    · obtain ⟨rfl, rfl⟩ := hinj h
      exact .inl rfl
    · exact .inr (ih h)
  | case2 l => cases h

/-- A last node that flags a list is in it: what is equal above it is equal down to it. -/
theorem mem_of_flagged_snoc (h : Flagged hash (l ++ [z])) : Flagged hash l ∨ z ∈ l := by
  induction hn : l.length using Nat.strongRecOn generalizing l z with
  | _ n ih =>
    subst hn
    rcases Nat.mod_two_eq_zero_or_one l.length with heven | hodd
    · exact .inl ((flagged_snoc_even heven z).1 h)
    · obtain ⟨m, y, rfl, hm⟩ := exists_snoc hodd
      rw [flagged_snoc_even hm]
      rcases (flagged_snoc_snoc hm y z).1 h with h | rfl | h
      · exact .inl (flagged_iff.2 (.inl h))
      · exact .inr (by simp)
      · have hlt : (pairs hash m).length < (m ++ [y]).length := by
          rw [length_pairs, List.length_append, List.length_singleton]
          omega
        rcases ih _ hlt h rfl with h | h
        · exact .inl (flagged_iff.2 (.inr h))
        · exact .inr (List.mem_append_left _ (mem_of_mem_pairs hinj h))

theorem flagged_of_parents (h : Flagged hash (parents hash l)) : Flagged hash l := by
  rcases Nat.mod_two_eq_zero_or_one l.length with heven | hodd
  · rw [parents_eq_pairs heven] at h
    exact flagged_iff.2 (.inr h)
  · obtain ⟨m, x, rfl, hm⟩ := exists_snoc hodd
    rw [parents_append hm] at h
    rw [flagged_snoc_even hm]
    rcases mem_of_flagged_snoc hinj h with h | h
    · exact flagged_iff.2 (.inr h)
    · exact flagged_iff.2 (.inl (twins_of_mem_pairs hinj h))

theorem flagged_of_parents_iterate (h : Flagged hash ((parents hash)^[k] l)) : Flagged hash l := by
  induction k with
  | zero => exact h
  | succ k ih =>
    rw [Function.iterate_succ_apply'] at h
    exact ih (flagged_of_parents hinj h)

theorem eq_of_parents_eq (h : parents hash l = parents hash l') (hl : ¬ Twins l) (hl' : ¬ Twins l') : l = l' := by
  induction l using List.twoStepInduction generalizing l' with
  | nil =>
    match l' with
    | [] => rfl
    | [x] => cases h
    | x :: y :: l' => cases h
  | singleton x =>
    match l' with
    | [] => cases h
    | [y] =>
      obtain ⟨rfl, -⟩ := hinj (List.cons.inj h).1
      rfl
    | y :: z :: l' =>
      obtain ⟨rfl, rfl⟩ := hinj (List.cons.inj h).1
      exact absurd (.inl rfl) hl'
  | cons_cons x y l ih _ =>
    match l' with
    | [] => cases h
    | [z] =>
      obtain ⟨rfl, rfl⟩ := hinj (List.cons.inj h).1
      exact absurd (.inl rfl) hl
    | z :: w :: l' =>
      obtain ⟨rfl, rfl⟩ := hinj (List.cons.inj h).1
      rw [ih (List.cons.inj h).2 (fun ht => hl (.inr ht)) fun ht => hl' (.inr ht)]

end Injective

/-! ## Ranks -/

variable (hash) in
inductive Rank : Nat → α → Prop
  | leaf {x : α} : (∀ a b, x ≠ hash a b) → Rank 0 x
  | node {k : Nat} {a b : α} : Rank k a → Rank k b → Rank (k + 1) (hash a b)

theorem Rank.unique (hinj : Function.Injective2 hash) (h : Rank hash j x) (h' : Rank hash k x) : j = k := by
  induction h generalizing k with
  | leaf hleaf =>
    cases h' with
    | leaf => rfl
    | node => exact absurd rfl (hleaf _ _)
  | @node j a b _ _ iha _ =>
    generalize hx : hash a b = x at h'
    cases h' with
    | leaf hleaf => exact absurd hx.symm (hleaf a b)
    | node hc hd =>
      obtain ⟨rfl, -⟩ := hinj hx
      rw [iha hc]

theorem rank_parents (h : ∀ x ∈ l, Rank hash k x) : ∀ x ∈ parents hash l, Rank hash (k + 1) x := by
  fun_induction parents hash l with
  | case1 x y l ih =>
    simp only [List.forall_mem_cons] at h ⊢
    exact ⟨.node h.1 h.2.1, ih h.2.2⟩
  | case2 x =>
    simp only [List.forall_mem_cons] at h ⊢
    exact ⟨.node h.1 h.1, nofun⟩
  | case3 => simp

theorem rank_iterate (h : ∀ x ∈ l, Rank hash k x) (d : Nat) : ∀ x ∈ (parents hash)^[d] l, Rank hash (k + d) x := by
  induction d with
  | zero => exact h
  | succ d ih =>
    rw [Function.iterate_succ_apply']
    exact rank_parents ih

/-- Lists of nodes of one rank with the same root are equal, unless one of them is flagged. -/
theorem eq_of_root_eq (hinj : Function.Injective2 hash) (hrank : ∀ x ∈ l, Rank hash k x)
    (hrank' : ∀ x ∈ l', Rank hash k x) (hroot : (parents hash)^[d] l = [r]) (hroot' : (parents hash)^[d'] l' = [r])
    (hl : ¬ Flagged hash l) (hl' : ¬ Flagged hash l') : l = l' := by
  have hheight : k + d = k + d' :=
    Rank.unique hinj (rank_iterate hrank d r (by simp [hroot])) (rank_iterate hrank' d' r (by simp [hroot']))
  obtain rfl : d = d' := Nat.add_left_cancel hheight
  clear hrank hrank' hheight
  induction d generalizing l l' with
  | zero => exact (show l = [r] from hroot).trans (show l' = [r] from hroot').symm
  | succ d ih =>
    rw [Function.iterate_succ_apply] at hroot hroot'
    have hparents := ih hroot (fun h => hl (flagged_of_parents hinj h)) (fun h => hl' (flagged_of_parents hinj h)) hroot'
    exact eq_of_parents_eq hinj hparents (fun h => hl (flagged_iff.2 (.inl h))) fun h => hl' (flagged_iff.2 (.inl h))

end Zumy.Lib.MerkleTree
