/-
  Zumy.Lib.DepthMemo — a recursion over a graph that remembers its values and stops at a depth.

  `eval n m a` computes `combine a` of the values of the children of `a`, `n` levels deep; below
  them every node has the value `cap`. It reads and writes a memo, which later evaluations
  find. `survey` follows the same recursion over the set of nodes that have a value, and lists
  the nodes computed on the last level.
-/
import Mathlib.Data.List.Basic

namespace Zumy.Lib

variable {α β : Type*} [DecidableEq α]

def evalAll {μ : Type*} (g : μ → α → β × μ) : μ → List α → List β × μ
  | m, [] => ([], m)
  | m, a :: as => ((g m a).1 :: (evalAll g (g m a).2 as).1, (evalAll g (g m a).2 as).2)

section
variable (children : α → List α) (combine : α → List β → β) (cap : β)

def eval : Nat → (α → Option β) → α → β × (α → Option β)
  | 0, m, _ => (cap, m)
  | n + 1, m, a =>
    match m a with
    | some b => (b, m)
    | none =>
      let r := evalAll (eval n) m (children a)
      (combine a r.1, fun x => if x = a then some (combine a r.1) else r.2 x)

/-- The nodes that a list of surveys computes on the last level, and the nodes with a value behind them. -/
def surveyAll (g : (α → Bool) → α → List α × (α → Bool)) : (α → Bool) → List α → List α × (α → Bool)
  | s, [] => ([], s)
  | s, a :: as => ((g s a).1 ++ (surveyAll g (g s a).2 as).1, (surveyAll g (g s a).2 as).2)

def survey : Nat → (α → Bool) → α → List α × (α → Bool)
  | 0, s, _ => ([], s)
  | n + 1, s, a =>
    if s a then ([], s)
    else
      let r := surveyAll (survey n) s (children a)
      (if n = 0 then a :: r.1 else r.1, fun x => decide (x = a) || r.2 x)

end

variable {children : α → List α} {combine : α → List β → β} {cap : β} {f : α → β} {n : Nat} {m : α → Option β} {a x : α} {b : β}

def settled (m : α → Option β) (x : α) : Bool := (m x).isSome

def Sound (f : α → β) (m : α → Option β) : Prop := ∀ x b, m x = some b → b = f x

/-! ## Lists -/

section
variable {g : (α → Option β) → α → β × (α → Option β)} {s : (α → Bool) → α → List α × (α → Bool)} {as : List α}

omit [DecidableEq α] in
theorem evalAll_keeps (hg : ∀ m a, m x = some b → (g m a).2 x = some b) (h : m x = some b) :
    (evalAll g m as).2 x = some b := by
  induction as generalizing m with
  | nil => exact h
  | cons a as ih => exact ih (hg m a h)

omit [DecidableEq α] in
theorem evalAll_getD {c : β} (hg : ∀ m a, ((g m a).2 x).getD c = (m x).getD c) : ((evalAll g m as).2 x).getD c = (m x).getD c := by
  induction as generalizing m with
  | nil => rfl
  | cons a as ih => exact ih.trans (hg m a)

omit [DecidableEq α] in
theorem settled_evalAll (hg : ∀ m a, settled (g m a).2 = (s (settled m) a).2) :
    settled (evalAll g m as).2 = (surveyAll s (settled m) as).2 := by
  induction as generalizing m with
  | nil => rfl
  | cons a as ih => rw [evalAll, surveyAll, ih, hg]

omit [DecidableEq α] in
theorem evalAll_deep (hset : ∀ m a, settled (g m a).2 = (s (settled m) a).2)
    (hkeep : ∀ m a, m x = some b → (g m a).2 x = some b) (hg : ∀ m a, x ∈ (s (settled m) a).1 → (g m a).2 x = some b)
    (hx : x ∈ (surveyAll s (settled m) as).1) : (evalAll g m as).2 x = some b := by
  induction as generalizing m with
  | nil => cases hx
  | cons a as ih =>
    rw [surveyAll, List.mem_append, ← hset] at hx
    show (evalAll g (g m a).2 as).2 x = some b
    obtain hx | hx := hx
    · exact evalAll_keeps hkeep (hg m a hx)
    · exact ih hx

omit [DecidableEq α] in
theorem evalAll_sound {v : α → β} {ok : α → Prop} (hset : ∀ m a, settled (g m a).2 = (s (settled m) a).2)
    (hg : ∀ m a, Sound f m → (∀ x ∈ (s (settled m) a).1, ok x) → (g m a).1 = v a ∧ Sound f (g m a).2)
    (hm : Sound f m) (hok : ∀ x ∈ (surveyAll s (settled m) as).1, ok x) :
    (evalAll g m as).1 = as.map v ∧ Sound f (evalAll g m as).2 := by
  induction as generalizing m with
  | nil => exact ⟨rfl, hm⟩
  | cons a as ih =>
    rw [surveyAll, ← hset] at hok
    obtain ⟨hvalue, hsound⟩ := hg m a hm fun x hx => hok x (List.mem_append_left _ hx)
    obtain ⟨hvalues, hsounds⟩ := ih hsound fun x hx => hok x (List.mem_append_right _ hx)
    rw [evalAll, List.map_cons, hvalue, hvalues]
    exact ⟨rfl, hsounds⟩

end

/-! ## One evaluation -/

theorem eval_of_settled (h : m a = some b) : eval children combine cap (n + 1) m a = (b, m) := by
  rw [eval, h]

theorem eval_of_none (h : m a = none) :
    eval children combine cap (n + 1) m a =
      (combine a (evalAll (eval children combine cap n) m (children a)).1,
        fun x => if x = a then some (combine a (evalAll (eval children combine cap n) m (children a)).1)
          else (evalAll (eval children combine cap n) m (children a)).2 x) := by
  rw [eval, h]

theorem survey_of_none (h : m a = none) :
    survey children (n + 1) (settled m) a =
      (if n = 0 then a :: (surveyAll (survey children n) (settled m) (children a)).1
        else (surveyAll (survey children n) (settled m) (children a)).1,
        fun x => decide (x = a) || (surveyAll (survey children n) (settled m) (children a)).2 x) := by
  rw [survey, settled, h, Option.isSome_none, if_neg Bool.false_ne_true]

theorem survey_of_settled (h : m a = some b) : survey children (n + 1) (settled m) a = ([], settled m) := by
  rw [survey, settled, h, Option.isSome_some, if_pos rfl]

theorem evalAll_zero (as : List α) : (evalAll (eval children combine cap 0) m as).1 = as.map fun _ => cap := by
  induction as with
  | nil => rfl
  | cons a as ih => exact congrArg (cap :: ·) ih

theorem eval_keeps (h : m x = some b) : (eval children combine cap n m a).2 x = some b := by
  induction n generalizing m a with
  | zero => exact h
  | succ n ih =>
    cases hm : m a with
    | some c =>
      rw [eval_of_settled hm]
      exact h
    | none =>
      have hne : x ≠ a := fun hx => by
        rw [hx, hm] at h
        cases h
      rw [eval_of_none hm]
      dsimp only
      rw [if_neg hne]
      exact evalAll_keeps (fun m a => ih) h

theorem eval_settles : (eval children combine cap (n + 1) m a).2 a = some (eval children combine cap (n + 1) m a).1 := by
  cases hm : m a with
  | some c =>
    rw [eval_of_settled hm]
    exact hm
  | none =>
    rw [eval_of_none hm]
    exact if_pos rfl

/-- A node whose children do not matter keeps its value, or gets the one it always has. -/
theorem eval_getD {c : β} (hc : ∀ bs, combine x bs = c) : ((eval children combine cap n m a).2 x).getD c = (m x).getD c := by
  induction n generalizing m a with
  | zero => rfl
  | succ n ih =>
    cases hm : m a with
    | some b => rw [eval_of_settled hm]
    | none =>
      rw [eval_of_none hm]
      by_cases hx : x = a
      · simp only [hx, if_true, Option.getD_some, hm, Option.getD_none]
        exact hx ▸ hc _
      · simp only [hx, if_false]
        exact evalAll_getD fun m a => ih

theorem settled_eval : settled (eval children combine cap n m a).2 = (survey children n (settled m) a).2 := by
  induction n generalizing m a with
  | zero => rfl
  | succ n ih =>
    cases hm : m a with
    | some c => rw [eval_of_settled hm, survey_of_settled hm]
    | none =>
      have hset : settled (evalAll (eval children combine cap n) m (children a)).2 =
          (surveyAll (survey children n) (settled m) (children a)).2 := settled_evalAll fun _ _ => ih
      rw [eval_of_none hm, survey_of_none hm, ← hset]
      funext x
      by_cases hx : x = a <;> simp [settled, hx]

section
variable {rank : α → Nat} (hrank : ∀ a, ∀ c ∈ children a, rank c < rank a)
include hrank

theorem rank_le_of_mem_survey {s : α → Bool} (hx : x ∈ (survey children n s a).1) : rank x ≤ rank a := by
  induction n generalizing s a with
  | zero => cases hx
  | succ n ih =>
    have hall (as : List α) (has : ∀ c ∈ as, rank c < rank a) : ∀ s, x ∈ (surveyAll (survey children n) s as).1 →
        rank x < rank a := by
      induction as with
      | nil => exact fun s hx => absurd hx List.not_mem_nil
      | cons c as ihas =>
        intro s hx
        obtain hx | hx := List.mem_append.1 hx
        · exact Nat.lt_of_le_of_lt (ih hx) (has c List.mem_cons_self)
        · exact ihas (fun c hc => has c (List.mem_cons_of_mem _ hc)) _ hx
    unfold survey at hx
    split at hx
    · cases hx
    · dsimp only at hx
      split at hx
      · obtain rfl | hx := List.mem_cons.1 hx
        · exact Nat.le_refl _
        · exact Nat.le_of_lt (hall _ (hrank a) _ hx)
      · exact Nat.le_of_lt (hall _ (hrank a) _ hx)

theorem not_mem_surveyAll_children {s : α → Bool} : a ∉ (surveyAll (survey children n) s (children a)).1 := by
  have hall (as : List α) (has : ∀ c ∈ as, rank c < rank a) : ∀ s, a ∉ (surveyAll (survey children n) s as).1 := by
    induction as with
    | nil => exact fun s => List.not_mem_nil
    | cons c as ih =>
      intro s hx
      obtain hx | hx := List.mem_append.1 hx
      · exact absurd (has c List.mem_cons_self) (Nat.not_lt.2 (rank_le_of_mem_survey hrank hx))
      · exact ih (fun c hc => has c (List.mem_cons_of_mem _ hc)) _ hx
  exact hall _ (hrank a) s

/-- A node of the last level keeps the value that `cap` for its children gives it. -/
theorem eval_deep (hx : x ∈ (survey children n (settled m) a).1) :
    (eval children combine cap n m a).2 x = some (combine x ((children x).map fun _ => cap)) := by
  induction n generalizing m a with
  | zero => cases hx
  | succ n ih =>
    cases hm : m a with
    | some c =>
      rw [survey_of_settled hm] at hx
      cases hx
    | none =>
      rw [survey_of_none hm] at hx
      rw [eval_of_none hm]
      dsimp only at hx ⊢
      by_cases hxa : x = a
      · subst hxa
        rw [if_pos rfl]
        split at hx
        · next hn =>
          subst hn
          rw [evalAll_zero]
        · exact absurd hx (not_mem_surveyAll_children hrank)
      · rw [if_neg hxa]
        refine evalAll_deep (fun _ _ => settled_eval) (fun _ _ => eval_keeps) (fun _ _ => ih) ?_
        split at hx
        · exact (List.mem_cons.1 hx).resolve_left hxa
        · exact hx

end

/-- From a memo of right values: if `cap` is right for the last level, the answer is right, and the memo stays so. -/
theorem eval_sound (hf : ∀ a, f a = combine a ((children a).map f)) (hm : Sound f m)
    (hdeep : ∀ x ∈ (survey children n (settled m) a).1, combine x ((children x).map fun _ => cap) = f x) :
    (eval children combine cap n m a).1 = (if n = 0 then cap else f a) ∧ Sound f (eval children combine cap n m a).2 := by
  induction n generalizing m a with
  | zero => exact ⟨rfl, hm⟩
  | succ n ih =>
    rw [if_neg n.succ_ne_zero]
    cases hma : m a with
    | some c =>
      rw [eval_of_settled hma]
      exact ⟨hm a c hma, hm⟩
    | none =>
      rw [survey_of_none hma] at hdeep
      dsimp only at hdeep
      have hchildren : (evalAll (eval children combine cap n) m (children a)).1 =
            (children a).map (fun c => if n = 0 then cap else f c) ∧
          Sound f (evalAll (eval children combine cap n) m (children a)).2 :=
        evalAll_sound (fun _ _ => settled_eval) (fun _ _ => ih) hm fun x hx => hdeep x (by split <;> simp [hx])
      obtain ⟨hvalues, hsound⟩ := hchildren
      have hvalue : combine a (evalAll (eval children combine cap n) m (children a)).1 = f a := by
        rw [hvalues]
        by_cases hn : n = 0
        · simp only [hn, if_true]
          exact hdeep a (by simp [hn])
        · simp only [hn, if_false]
          exact (hf a).symm
      rw [eval_of_none hma, hvalue]
      refine ⟨rfl, fun x b hx => ?_⟩
      dsimp only at hx
      split at hx
      · next hxa =>
        cases hx
        rw [hxa]
      · exact hsound x b hx

theorem eval_sound_iff {rank : α → Nat} (hrank : ∀ a, ∀ c ∈ children a, rank c < rank a)
    (hf : ∀ a, f a = combine a ((children a).map f)) (hm : Sound f m) :
    ((eval children combine cap (n + 1) m a).1 = f a ∧ Sound f (eval children combine cap (n + 1) m a).2) ↔
      ∀ x ∈ (survey children (n + 1) (settled m) a).1, combine x ((children x).map fun _ => cap) = f x := by
  constructor
  · intro h x hx
    exact h.2 x _ (eval_deep hrank hx)
  · intro hdeep
    have hsound := eval_sound hf hm hdeep
    rwa [if_neg n.succ_ne_zero] at hsound

end Zumy.Lib
