/-
  Zumy.BlockIndex.Skip — the skip pointers of the block tree (chain.cpp: `GetSkipHeight`,
  `GetAncestor`, `BuildSkip`; main.cpp: `AddToBlockIndex`, `LoadBlockIndexDB`).

  An entry is known by the hash of its block. What an entry holds besides its place in the
  tree is left out. `GetAncestor` chooses at each entry between `pskip` and `pprev`; an entry
  that `BuildSkip` has not reached yet, as while the index is loaded, has none.

  - `getSkipHeight_lt`: a skip leads to a lower height.
  - `Walking.turn`: each move of a walk leads to a strictly lower ancestor, not below the
    height that is asked for.
-/
import Mathlib.Algebra.Order.Ring.Nat
import Zumy.BlockIndex.Model
import Zumy.Lib.Loop

namespace Zumy.BlockIndex.Skip

open Lib

structure SkipEntry where
  pprev : Option BlockPtr
  pskip : Option BlockPtr
  nHeight : Int
  deriving DecidableEq

/-- `mapBlockIndex`, by the hash. -/
abbrev BlockMap := BlockPtr → Option SkipEntry

def BlockMap.pprev (blocks : BlockMap) (p : BlockPtr) : Option BlockPtr := (blocks p).bind (·.pprev)

/-! ## Heights -/

/-- `n & (n - 1)`, of a number that is not negative. -/
def invertLowestOne (n : Int) : Int := ((n.toNat &&& (n.toNat - 1) : Nat) : Int)

def getSkipHeight (height : Int) : Int :=
  if height < 2 then 0
  else if height % 2 = 1 then invertLowestOne (invertLowestOne (height - 1)) + 1
  else invertLowestOne height

theorem invertLowestOne_nonneg (n : Int) : 0 ≤ invertLowestOne n := Int.natCast_nonneg _

theorem invertLowestOne_le {n : Int} (h : 0 ≤ n) : invertLowestOne n ≤ n := by
  have hand : n.toNat &&& (n.toNat - 1) ≤ n.toNat := Nat.and_le_left
  unfold invertLowestOne
  omega

theorem invertLowestOne_lt {n : Int} (h : 0 < n) : invertLowestOne n < n := by
  have hand : n.toNat &&& (n.toNat - 1) ≤ n.toNat - 1 := Nat.and_le_right
  unfold invertLowestOne
  omega

theorem getSkipHeight_nonneg (height : Int) : 0 ≤ getSkipHeight height := by
  unfold getSkipHeight
  split
  · exact le_refl 0
  · split
    · have h := invertLowestOne_nonneg (invertLowestOne (height - 1))
      omega
    · exact invertLowestOne_nonneg height

theorem getSkipHeight_lt {height : Int} (h : 0 < height) : getSkipHeight height < height := by
  unfold getSkipHeight
  split
  · exact h
  · next hge =>
    split
    · have hinner : invertLowestOne (height - 1) < height - 1 := invertLowestOne_lt (by omega)
      have houter := invertLowestOne_le (invertLowestOne_nonneg (height - 1))
      omega
    · exact invertLowestOne_lt h

/-! ## `GetAncestor` -/

structure Walk where
  pindexWalk : BlockPtr
  heightWalk : Int

/-- One way through the loop. `none`: a null pointer is followed. -/
def walkTurn (blocks : BlockMap) (height : Int) (w : Walk) : Turn Walk (Option BlockPtr) :=
  if w.heightWalk > height then
    match blocks w.pindexWalk with
    | none => .done none
    | some b =>
      let heightSkip := getSkipHeight w.heightWalk
      let heightSkipPrev := getSkipHeight (w.heightWalk - 1)
      let fSkip := heightSkip = height ∨
        (heightSkip > height ∧ ¬ (heightSkipPrev < heightSkip - 2 ∧ heightSkipPrev ≥ height))
      -- only follow pskip if pprev->pskip isn't better than pskip->pprev
      match if fSkip then b.pskip else none with
      | some pskip => .again ⟨pskip, heightSkip⟩
      | none =>
        match b.pprev with
        | none => .done none
        | some pprev => .again ⟨pprev, w.heightWalk - 1⟩
  else .done (some w.pindexWalk)

/-- `none`: an assertion failed, or the walk took more turns than there are heights. -/
def getAncestor (blocks : BlockMap) (p : BlockPtr) (height : Int) : Option (Option BlockPtr) :=
  match blocks p with
  | none => none
  | some b =>
    if height > b.nHeight ∨ height < 0 then some none
    else
      match loop (walkTurn blocks height) (b.nHeight.toNat + 1) ⟨p, b.nHeight⟩ with
      | some (some q) => some (some q)
      | _ => none

/-! ## The tree -/

def buildSkip (blocks : BlockMap) (p : BlockPtr) : Option BlockMap :=
  match blocks p with
  | none => none
  | some b =>
    match b.pprev with
    | none => some blocks
    | some pprev =>
      (getAncestor blocks pprev (getSkipHeight b.nHeight)).map fun pskip =>
        Function.update blocks p (some { b with pskip := pskip })

def addToBlockIndex (blocks : BlockMap) (hash hashPrevBlock : BlockPtr) : Option BlockMap :=
  if (blocks hash).isSome then some blocks
  else
    let inserted := Function.update blocks hash (some ⟨none, none, 0⟩)
    match inserted hashPrevBlock with
    | none => some inserted
    | some prev => buildSkip (Function.update blocks hash (some ⟨some hashPrevBlock, none, prev.nHeight + 1⟩)) hash

/-- `vSortedByHeight`: the entries, sorted by their heights. -/
structure SortedByHeight (blocks : BlockMap) where
  order : List BlockPtr
  nodup : order.Nodup
  mem : ∀ p, p ∈ order ↔ (blocks p).isSome
  sorted : order.Pairwise fun p q => ∀ b ∈ blocks p, ∀ d ∈ blocks q, b.nHeight ≤ d.nHeight

def BlockMap.clear (blocks : BlockMap) : BlockMap := fun p => (blocks p).map fun b => { b with pskip := none }

/-- The entries as they are stored, each linked and then given its skip pointer. -/
def loadBlockIndexDB (blocks : BlockMap) (vSortedByHeight : SortedByHeight blocks) : Option BlockMap :=
  vSortedByHeight.order.foldlM buildSkip blocks.clear

/-- An entry stands one above its parent, a root at 0; a skip pointer leads to the ancestor at
    the skip height. -/
structure TreeInv (blocks : BlockMap) : Prop where
  nonneg : ∀ {p b}, blocks p = some b → 0 ≤ b.nHeight
  root : ∀ {p b}, blocks p = some b → b.pprev = none → b.nHeight = 0
  parent : ∀ {p b q}, blocks p = some b → b.pprev = some q → ∃ d, blocks q = some d ∧ b.nHeight = d.nHeight + 1
  skip : ∀ {p b q}, blocks p = some b → b.pskip = some q → 0 < b.nHeight ∧
    ascend blocks.pprev (b.nHeight - getSkipHeight b.nHeight).toNat p = some q

variable {blocks blocks' : BlockMap} {p q r : BlockPtr} {b d : SkipEntry} {height : Int} {w w' : Walk} {n : Nat}

theorem pprev_eq (hb : blocks p = some b) : blocks.pprev p = b.pprev := by
  rw [BlockMap.pprev, hb, Option.bind_some]

theorem TreeInv.exists_of_ascend (h : TreeInv blocks) (hb : blocks p = some b) (hup : ascend blocks.pprev n p = some q) :
    ∃ d, blocks q = some d ∧ d.nHeight = b.nHeight - n := by
  induction n generalizing p b with
  | zero =>
    cases hup
    exact ⟨b, hb, by simp⟩
  | succ n ih =>
    rw [ascend, pprev_eq hb] at hup
    cases hprev : b.pprev with
    | none =>
      rw [hprev] at hup
      cases hup
    | some a =>
      rw [hprev] at hup
      obtain ⟨e, he, hheight⟩ := h.parent hb hprev
      obtain ⟨d, hd, hdheight⟩ := ih he hup
      exact ⟨d, hd, by omega⟩

theorem TreeInv.height_ascend (h : TreeInv blocks) (hb : blocks p = some b) (hup : ascend blocks.pprev n p = some q)
    (hd : blocks q = some d) : d.nHeight = b.nHeight - n := by
  obtain ⟨d', hd', hheight⟩ := h.exists_of_ascend hb hup
  rw [hd, Option.some.injEq] at hd'
  rw [hd', hheight]

theorem TreeInv.ascend_isSome (h : TreeInv blocks) (hb : blocks p = some b) (hn : (n : Int) ≤ b.nHeight) :
    ∃ q d, ascend blocks.pprev n p = some q ∧ blocks q = some d ∧ d.nHeight = b.nHeight - n := by
  have hsome : ∃ q, ascend blocks.pprev n p = some q := by
    induction n generalizing p b with
    | zero => exact ⟨p, rfl⟩
    | succ n ih =>
      cases hprev : b.pprev with
      | none =>
        have hroot := h.root hb hprev
        omega
      | some a =>
        obtain ⟨e, he, hheight⟩ := h.parent hb hprev
        rw [ascend_succ ((pprev_eq hb).trans hprev)]
        exact ih he (by omega)
  obtain ⟨q, hq⟩ := hsome
  obtain ⟨d, hd, hheight⟩ := h.exists_of_ascend hb hq
  exact ⟨q, d, hq, hd, hheight⟩

/-- A walk on its way from `p`, at `nHeight`, to the ancestor at `height`. -/
structure Walking (blocks : BlockMap) (p : BlockPtr) (nHeight height : Int) (w : Walk) : Prop where
  entry : ∃ b, blocks w.pindexWalk = some b ∧ b.nHeight = w.heightWalk
  path : ascend blocks.pprev (nHeight - w.heightWalk).toNat p = some w.pindexWalk
  below : w.heightWalk ≤ nHeight
  above : height ≤ w.heightWalk

theorem walkTurn_again (h : TreeInv blocks) (hb : blocks w.pindexWalk = some b) (hheight : b.nHeight = w.heightWalk)
    (hturn : walkTurn blocks height w = .again w') :
    height < w.heightWalk ∧ (w'.heightWalk = getSkipHeight w.heightWalk ∧
      height ≤ w'.heightWalk ∨ w'.heightWalk = w.heightWalk - 1) ∧
      ascend blocks.pprev (w.heightWalk - w'.heightWalk).toNat w.pindexWalk = some w'.pindexWalk := by
  unfold walkTurn at hturn
  split at hturn
  · next hgt =>
    refine ⟨hgt, ?_⟩
    rw [hb] at hturn
    dsimp only at hturn
    split at hturn
    · next pskip hskip =>
      cases hturn
      split at hskip
      · next hfollow =>
        refine ⟨.inl ⟨rfl, ?_⟩, ?_⟩
        · show height ≤ getSkipHeight w.heightWalk
          omega
        · rw [← hheight]
          exact (h.skip hb hskip).2
      · cases hskip
    · split at hturn
      · cases hturn
      · next pprev hprev =>
        cases hturn
        refine ⟨.inr rfl, ?_⟩
        have hone : (w.heightWalk - (w.heightWalk - 1)).toNat = 0 + 1 := by omega
        show ascend blocks.pprev (w.heightWalk - (w.heightWalk - 1)).toNat w.pindexWalk = some pprev
        rw [hone, ascend_succ ((pprev_eq hb).trans hprev)]
        rfl
  · cases hturn

theorem Walking.turn (h : TreeInv blocks) (hheight : 0 ≤ height) (hp : blocks p = some b)
    (hw : Walking blocks p b.nHeight height w)
    (hturn : walkTurn blocks height w = .again w') :
    Walking blocks p b.nHeight height w' ∧ w'.heightWalk < w.heightWalk := by
  obtain ⟨e, he, heheight⟩ := hw.entry
  obtain ⟨hgt, hplace, hup⟩ := walkTurn_again h he heheight hturn
  have hlt := getSkipHeight_lt (lt_of_le_of_lt hheight hgt)
  have hnonneg := getSkipHeight_nonneg w.heightWalk
  have hbelow := hw.below
  have hpath : ascend blocks.pprev (b.nHeight - w'.heightWalk).toNat p = some w'.pindexWalk := by
    have hsum : (b.nHeight - w'.heightWalk).toNat = (b.nHeight - w.heightWalk).toNat + (w.heightWalk - w'.heightWalk).toNat := by
      omega
    rw [hsum, ascend_add hw.path, hup]
  obtain ⟨q, d, hq, hd, hdheight⟩ := h.ascend_isSome (n := (b.nHeight - w'.heightWalk).toNat) hp (by omega)
  rw [hpath, Option.some.injEq] at hq
  subst hq
  exact ⟨⟨⟨d, hd, by omega⟩, hpath, by omega, by omega⟩, by omega⟩

theorem walkTurn_done (h : TreeInv blocks) (hheight : 0 ≤ height) (hw : Walking blocks p b.nHeight height w) {o : Option BlockPtr}
    (hturn : walkTurn blocks height w = .done o) : o = some w.pindexWalk ∧ w.heightWalk = height := by
  have habove := hw.above
  unfold walkTurn at hturn
  split at hturn
  · next hgt =>
    obtain ⟨e, he, heheight⟩ := hw.entry
    rw [he] at hturn
    dsimp only at hturn
    split at hturn
    · cases hturn
    · split at hturn
      · next hprev =>
        have hroot := h.root he hprev
        omega
      · cases hturn
  · cases hturn
    exact ⟨rfl, by omega⟩

theorem walking_start (hp : blocks p = some b) (hle : height ≤ b.nHeight) : Walking blocks p b.nHeight height ⟨p, b.nHeight⟩ where
  entry := ⟨b, hp, rfl⟩
  path := by rw [Int.sub_self]; rfl
  below := le_refl _
  above := hle

theorem getAncestor_eq (h : TreeInv blocks) (hp : blocks p = some b) (hheight : 0 ≤ height) (hle : height ≤ b.nHeight) :
    ∃ q, ascend blocks.pprev (b.nHeight - height).toNat p = some q ∧ getAncestor blocks p height = some (some q) := by
  have hloop : (loop (walkTurn blocks height) (b.nHeight.toNat + 1) ⟨p, b.nHeight⟩).isSome := by
    apply loop_isSome_of_measure (I := Walking blocks p b.nHeight height) (fun w => w.heightWalk.toNat) _ (walking_start hp hle)
      (Nat.lt_succ_self _)
    intro w w' hw hturn
    obtain ⟨hw', hlt⟩ := hw.turn h hheight hp hturn
    have habove := hw'.above
    exact ⟨hw', by omega⟩
  obtain ⟨o, ho⟩ := Option.isSome_iff_exists.1 hloop
  have hend : ∃ q, o = some q ∧ ascend blocks.pprev (b.nHeight - height).toNat p = some q := by
    apply loop_spec (I := Walking blocks p b.nHeight height) _ _ (walking_start hp hle) ho
    · intro w w' hw hturn
      exact (hw.turn h hheight hp hturn).1
    · intro w r hw hturn
      obtain ⟨rfl, hat⟩ := walkTurn_done h hheight hw hturn
      exact ⟨w.pindexWalk, rfl, by rw [← hat]; exact hw.path⟩
  obtain ⟨q, rfl, hq⟩ := hend
  refine ⟨q, hq, ?_⟩
  have hrange : ¬ (height > b.nHeight ∨ height < 0) := by omega
  unfold getAncestor
  rw [hp]
  dsimp only
  rw [if_neg hrange, ho]

theorem getAncestor_outside (hp : blocks p = some b) (hout : height < 0 ∨ b.nHeight < height) :
    getAncestor blocks p height = some none := by
  unfold getAncestor
  rw [hp]
  dsimp only
  rw [if_pos (by omega)]

/-! ## The walk without skip pointers -/

/-- The block index of `Model` is this tree. -/
def Shows (s : IndexState) (blocks : BlockMap) : Prop :=
  ∀ p b, blocks p = some b → s.pprev p = b.pprev ∧ (s.blocks p).nHeight = b.nHeight

theorem climb_ascend {s : IndexState} {fuel : Nat} (hs : Shows s blocks) (h : TreeInv blocks) (hp : blocks p = some b)
    (hheight : 0 ≤ height) (hn : b.nHeight = height + n) (hfuel : n ≤ fuel) :
    ∃ l q, climb s.pprev (fun q => decide ((s.blocks q).nHeight ≤ height)) fuel (some p) = some (l, some q) ∧
      ascend blocks.pprev n p = some q := by
  obtain ⟨hsprev, hsheight⟩ := hs p b hp
  induction n generalizing p b fuel with
  | zero =>
    refine ⟨[], p, ?_, rfl⟩
    cases fuel <;> simp [climb, hsheight, hn]
  | succ n ih =>
    obtain ⟨fuel, rfl⟩ : ∃ k, fuel = k + 1 := ⟨fuel - 1, by omega⟩
    cases hprev : b.pprev with
    | none =>
      have hroot := h.root hp hprev
      omega
    | some a =>
      obtain ⟨e, he, hsucc⟩ := h.parent hp hprev
      obtain ⟨hsprev', hsheight'⟩ := hs a e he
      have hfuel' : n ≤ fuel := by omega
      obtain ⟨l, q, hclimb, hq⟩ := ih he (by omega) hfuel' hsprev' hsheight'
      refine ⟨p :: l, q, ?_, by rw [ascend_succ ((pprev_eq hp).trans hprev), hq]⟩
      have hgo : ¬ (s.blocks p).nHeight ≤ height := by omega
      rw [climb, hsprev, hprev, hclimb]
      simp [hgo]

def SameTree (blocks blocks' : BlockMap) : Prop :=
  ∀ p, (blocks' p).map (fun b => (b.pprev, b.nHeight)) = (blocks p).map fun b => (b.pprev, b.nHeight)

theorem SameTree.refl : SameTree blocks blocks := fun _ => rfl

theorem SameTree.trans {blocks'' : BlockMap} (h : SameTree blocks blocks') (h' : SameTree blocks' blocks'') :
    SameTree blocks blocks'' :=
  fun p => (h' p).trans (h p)

theorem SameTree.pprev (h : SameTree blocks blocks') : blocks'.pprev = blocks.pprev := by
  funext p
  have hp := h p
  unfold BlockMap.pprev
  cases hb : blocks p <;> cases hb' : blocks' p <;> simp_all

theorem SameTree.some (h : SameTree blocks blocks') (hb : blocks p = some b) :
    ∃ b', blocks' p = some b' ∧ b'.pprev = b.pprev ∧ b'.nHeight = b.nHeight := by
  have hp := h p
  rw [hb, Option.map_some, Option.map_eq_some_iff] at hp
  obtain ⟨b', hb', heq⟩ := hp
  exact ⟨b', hb', (Prod.mk.inj heq).1, (Prod.mk.inj heq).2⟩

theorem SameTree.symm (h : SameTree blocks blocks') : SameTree blocks' blocks := fun p => (h p).symm

theorem TreeInv.of_sameTree (h : TreeInv blocks) (hsame : SameTree blocks blocks')
    (hskip : ∀ {p b q}, blocks' p = some b → b.pskip = some q → 0 < b.nHeight ∧
      ascend blocks.pprev (b.nHeight - getSkipHeight b.nHeight).toNat p = some q) : TreeInv blocks' where
  nonneg hb := by
    obtain ⟨d, hd, -, hheight⟩ := hsame.symm.some hb
    rw [← hheight]
    exact h.nonneg hd
  root hb hprev := by
    obtain ⟨d, hd, hdprev, hheight⟩ := hsame.symm.some hb
    rw [← hheight]
    exact h.root hd (hdprev.trans hprev)
  parent hb hprev := by
    obtain ⟨d, hd, hdprev, hheight⟩ := hsame.symm.some hb
    obtain ⟨e, he, hsucc⟩ := h.parent hd (hdprev.trans hprev)
    obtain ⟨e', he', -, heheight⟩ := hsame.some he
    exact ⟨e', he', by rw [← hheight, hsucc, heheight]⟩
  skip hb hq := by
    rw [hsame.pprev]
    exact hskip hb hq

theorem sameTree_clear : SameTree blocks blocks.clear := by
  intro p
  unfold BlockMap.clear
  cases blocks p <;> rfl

theorem TreeInv.clear (h : TreeInv blocks) : TreeInv blocks.clear := by
  apply h.of_sameTree sameTree_clear
  intro p b q hb hq
  obtain ⟨d, -, rfl⟩ := Option.map_eq_some_iff.1 hb
  cases hq

theorem TreeInv.buildSkip (h : TreeInv blocks) (hp : blocks p = some b) :
    ∃ blocks', Skip.buildSkip blocks p = some blocks' ∧ TreeInv blocks' ∧ SameTree blocks blocks' := by
  unfold Skip.buildSkip
  rw [hp]
  dsimp only
  cases hprev : b.pprev with
  | none => exact ⟨blocks, rfl, h, SameTree.refl⟩
  | some pprev =>
    obtain ⟨d, hd, hheight⟩ := h.parent hp hprev
    have hnonneg := h.nonneg hd
    have hlt : getSkipHeight b.nHeight < b.nHeight := getSkipHeight_lt (by omega)
    obtain ⟨q, hq, hget⟩ := getAncestor_eq h hd (getSkipHeight_nonneg b.nHeight) (by omega)
    have hsame : SameTree blocks (Function.update blocks p (some ⟨some pprev, some q, b.nHeight⟩)) := by
      intro r
      by_cases hr : r = p
      · subst hr
        rw [Function.update_self, hp, Option.map_some, Option.map_some, hprev]
      · rw [Function.update_of_ne hr]
    refine ⟨_, by dsimp only; rw [hget]; rfl, h.of_sameTree hsame ?_, hsame⟩
    intro r e q' he hq'
    by_cases hr : r = p
    · subst hr
      rw [Function.update_self, Option.some.injEq] at he
      subst he
      cases hq'
      refine ⟨by show 0 < b.nHeight; omega, ?_⟩
      have hsucc : (b.nHeight - getSkipHeight b.nHeight).toNat = (d.nHeight - getSkipHeight b.nHeight).toNat + 1 := by omega
      show ascend blocks.pprev (b.nHeight - getSkipHeight b.nHeight).toNat r = some q
      rw [hsucc, ascend_succ ((pprev_eq hp).trans hprev), hq]
    · rw [Function.update_of_ne hr] at he
      exact h.skip he hq'

theorem TreeInv.foldlM_buildSkip (h : TreeInv blocks) {order : List BlockPtr} (hmem : ∀ p ∈ order, (blocks p).isSome) :
    ∃ blocks', order.foldlM Skip.buildSkip blocks = some blocks' ∧ TreeInv blocks' ∧ SameTree blocks blocks' := by
  induction order generalizing blocks with
  | nil => exact ⟨blocks, rfl, h, SameTree.refl⟩
  | cons p order ih =>
    obtain ⟨b, hb⟩ := Option.isSome_iff_exists.1 (hmem p List.mem_cons_self)
    obtain ⟨blocks₁, hfirst, h₁, hsame₁⟩ := h.buildSkip hb
    have hrest : ∀ q ∈ order, (blocks₁ q).isSome := by
      intro q hq
      obtain ⟨e, he⟩ := Option.isSome_iff_exists.1 (hmem q (List.mem_cons_of_mem p hq))
      obtain ⟨e', he', -⟩ := hsame₁.some he
      rw [he']
      rfl
    obtain ⟨blocks₂, hlast, h₂, hsame₂⟩ := ih h₁ hrest
    refine ⟨blocks₂, ?_, h₂, hsame₁.trans hsame₂⟩
    rw [List.foldlM_cons, hfirst]
    exact hlast

theorem TreeInv.load (h : TreeInv blocks) (v : SortedByHeight blocks) :
    ∃ blocks', loadBlockIndexDB blocks v = some blocks' ∧ TreeInv blocks' ∧ SameTree blocks blocks' := by
  have hmem : ∀ p ∈ v.order, (blocks.clear p).isSome := by
    intro p hp
    unfold BlockMap.clear
    rw [Option.isSome_map]
    exact (v.mem p).1 hp
  obtain ⟨blocks', hfold, h', hsame⟩ := h.clear.foldlM_buildSkip hmem
  exact ⟨blocks', hfold, h', sameTree_clear.trans hsame⟩

def Keeps (blocks blocks' : BlockMap) : Prop :=
  ∀ p b, blocks p = some b → ∃ b', blocks' p = some b' ∧ b'.pprev = b.pprev ∧ b'.nHeight = b.nHeight

theorem Keeps.ascend_eq (hkeep : Keeps blocks blocks') (h : TreeInv blocks) (hp : blocks p = some b) :
    ascend blocks'.pprev n p = ascend blocks.pprev n p := by
  induction n generalizing p b with
  | zero => rfl
  | succ n ih =>
    obtain ⟨b', hb', hprev', -⟩ := hkeep p b hp
    rw [ascend, ascend, pprev_eq hp, pprev_eq hb', hprev']
    cases hprev : b.pprev with
    | none => rfl
    | some q =>
      obtain ⟨e, he, -⟩ := h.parent hp hprev
      exact ih he

theorem keeps_insert (hnew : blocks r = none) : Keeps blocks (Function.update blocks r (some d)) := by
  intro p b hp
  have hpr : p ≠ r := by
    intro heq
    rw [heq, hnew] at hp
    cases hp
  exact ⟨b, by rw [Function.update_of_ne hpr, hp], rfl, rfl⟩

theorem TreeInv.insert (h : TreeInv blocks) (hnew : blocks r = none) (hskip : d.pskip = none) (hnonneg : 0 ≤ d.nHeight)
    (hroot : d.pprev = none → d.nHeight = 0)
    (hparent : ∀ q, d.pprev = some q → ∃ e, blocks q = some e ∧ d.nHeight = e.nHeight + 1) :
    TreeInv (Function.update blocks r (some d)) := by
  have hold {p b} (hp : Function.update blocks r (some d) p = some b) : (p = r ∧ b = d) ∨ blocks p = some b := by
    by_cases hpr : p = r
    · subst hpr
      rw [Function.update_self, Option.some.injEq] at hp
      exact .inl ⟨rfl, hp.symm⟩
    · rw [Function.update_of_ne hpr] at hp
      exact .inr hp
  have hkeep : Keeps blocks (Function.update blocks r (some d)) := keeps_insert hnew
  constructor
  · intro p b hp
    rcases hold hp with ⟨-, rfl⟩ | hp
    · exact hnonneg
    · exact h.nonneg hp
  · intro p b hp hprev
    rcases hold hp with ⟨-, rfl⟩ | hp
    · exact hroot hprev
    · exact h.root hp hprev
  · intro p b q hp hprev
    rcases hold hp with ⟨-, rfl⟩ | hp
    · obtain ⟨e, he, hheight⟩ := hparent q hprev
      obtain ⟨e', he', -, heq⟩ := hkeep q e he
      exact ⟨e', he', by rw [hheight, heq]⟩
    · obtain ⟨e, he, hheight⟩ := h.parent hp hprev
      obtain ⟨e', he', -, heq⟩ := hkeep q e he
      exact ⟨e', he', by rw [hheight, heq]⟩
  · intro p b q hp hq
    rcases hold hp with ⟨-, rfl⟩ | hp
    · rw [hskip] at hq
      cases hq
    · obtain ⟨hpos, hup⟩ := h.skip hp hq
      exact ⟨hpos, by rw [hkeep.ascend_eq h hp, hup]⟩

theorem TreeInv.add {hash hashPrevBlock : BlockPtr} (h : TreeInv blocks) (hne : hashPrevBlock ≠ hash) :
    ∃ blocks', addToBlockIndex blocks hash hashPrevBlock = some blocks' ∧ TreeInv blocks' ∧ Keeps blocks blocks' ∧
      ∀ p b', blocks' p = some b' → (∃ b, blocks p = some b ∧ b'.nHeight = b.nHeight) ∨ b'.nHeight = 0 ∨
        ∃ prev, blocks hashPrevBlock = some prev ∧ b'.nHeight = prev.nHeight + 1 := by
  unfold addToBlockIndex
  cases hnew : blocks hash with
  | some e => exact ⟨blocks, rfl, h, fun p b hp => ⟨b, hp, rfl, rfl⟩, fun p b hp => .inl ⟨b, hp, rfl⟩⟩
  | none =>
    rw [Option.isSome_none, if_neg Bool.false_ne_true]
    dsimp only
    rw [Function.update_of_ne hne]
    have hold {d b' : SkipEntry} {p : BlockPtr} (hp : Function.update blocks hash (some d) p = some b') :
        b' = d ∨ blocks p = some b' := by
      by_cases hph : p = hash
      · subst hph
        rw [Function.update_self, Option.some.injEq] at hp
        exact .inl hp.symm
      · rw [Function.update_of_ne hph] at hp
        exact .inr hp
    cases hprev : blocks hashPrevBlock with
    | none =>
      refine ⟨_, rfl, h.insert hnew rfl (le_refl 0) (fun _ => rfl) (fun q hq => (by cases hq)), keeps_insert hnew, ?_⟩
      intro p b' hp
      rcases hold hp with rfl | hp
      · exact .inr (.inl rfl)
      · exact .inl ⟨b', hp, rfl⟩
    | some prev =>
      have hnonneg := h.nonneg hprev
      have hinserted : TreeInv (Function.update blocks hash (some ⟨some hashPrevBlock, none, prev.nHeight + 1⟩)) := by
        refine h.insert hnew rfl (by show 0 ≤ prev.nHeight + 1; omega) (fun hroot => (by cases hroot)) ?_
        intro q hq
        cases hq
        exact ⟨prev, hprev, rfl⟩
      obtain ⟨blocks', hbuilt, h', hsame⟩ := hinserted.buildSkip (Function.update_self ..)
      refine ⟨blocks', hbuilt, h', fun p b hp => ?_, fun p b' hp => ?_⟩
      · obtain ⟨b₁, hb₁, hprev₁, hheight₁⟩ := keeps_insert hnew p b hp
        obtain ⟨b₂, hb₂, hprev₂, hheight₂⟩ := hsame.some hb₁
        exact ⟨b₂, hb₂, hprev₂.trans hprev₁, hheight₂.trans hheight₁⟩
      · obtain ⟨b₁, hb₁, -, hheight⟩ := hsame.symm.some hp
        rcases hold hb₁ with rfl | hb₁
        · exact .inr (.inr ⟨prev, rfl, hheight.symm⟩)
        · exact .inl ⟨b₁, hb₁, hheight.symm⟩

end Zumy.BlockIndex.Skip
