/-
  Zumy.BlockIndex.Chain — an indexed chain over the block tree (chain.h, chain.cpp: `CChain`).

  - `ChainInv.setTip`: the chain of a tip holds its ancestors, each at its height.
  - `findFork_spec`: `FindFork` finds the last block that the chain and a block's ancestors
    have in common.
  - `getLocator_spec`: a locator leads down from its block to a root, each entry an ancestor
    of the one before it. `nStep` is an `int`: where doubling it wraps, the next entry is the
    root and it is not used any more.
-/
import Mathlib.Data.List.Induction
import Zumy.BlockIndex.Skip

namespace Zumy.BlockIndex.Skip

open Lib

/-- `vChain`: by the height. -/
abbrev CChain := List (Option BlockPtr)

namespace CChain

/-- `operator[]` -/
def entry (vChain : CChain) (nHeight : Int) : Option BlockPtr :=
  if nHeight < 0 ∨ nHeight ≥ vChain.length then none else vChain[nHeight.toNat]?.join

def tip (vChain : CChain) : Option BlockPtr := vChain.getLast?.join

def height (vChain : CChain) : Int := vChain.length - 1

def contains (blocks : BlockMap) (vChain : CChain) (p : BlockPtr) : Bool :=
  match blocks p with
  | none => false
  | some b => vChain.entry b.nHeight == some p

end CChain

/-! ## `SetTip` -/

/-- `resize` -/
def resize (vChain : CChain) (n : Nat) : CChain := vChain.take n ++ List.replicate (n - vChain.length) none

structure Filling where
  pindex : Option BlockPtr
  vChain : CChain

/-- One way through the loop. `none`: a pointer leads to no entry. -/
def setTipTurn (blocks : BlockMap) (s : Filling) : Turn Filling (Option CChain) :=
  match s.pindex with
  | none => .done (some s.vChain)
  | some p =>
    match blocks p with
    | none => .done none
    | some b =>
      if s.vChain.entry b.nHeight = some p then .done (some s.vChain)
      else .again ⟨b.pprev, s.vChain.set b.nHeight.toNat (some p)⟩

def setTip (blocks : BlockMap) (vChain : CChain) (pindex : Option BlockPtr) : Option CChain :=
  match pindex with
  | none => some []
  | some p =>
    match blocks p with
    | none => none
    | some b => (loop (setTipTurn blocks) (b.nHeight.toNat + 2) ⟨pindex, resize vChain (b.nHeight + 1).toNat⟩).join

/-! ## `FindFork` and `GetLocator` -/

def findFork (blocks : BlockMap) (vChain : CChain) (pindex : Option BlockPtr) : Option (Option BlockPtr) :=
  match pindex with
  | none => some none
  | some p =>
    match blocks p with
    | none => none
    | some b =>
      (if b.nHeight > vChain.height then getAncestor blocks p vChain.height else some (some p)).bind fun pindex =>
        (climb blocks.pprev (vChain.contains blocks) (b.nHeight.toNat + 1) pindex).map Prod.snd

structure Locating where
  pindex : Option BlockPtr
  nStep : Int
  vHave : List BlockPtr

def locatorTurn (blocks : BlockMap) (vChain : CChain) (s : Locating) : Turn Locating (Option (List BlockPtr)) :=
  match s.pindex with
  | none => .done (some s.vHave)
  | some p =>
    match blocks p with
    | none => .done none
    | some b =>
      let vHave := s.vHave ++ [p]
      -- stop when we have added the genesis block
      if b.nHeight = 0 then .done (some vHave)
      else
        -- exponentially larger steps back, plus the genesis block
        let nHeight := max (b.nHeight - s.nStep) 0
        match if vChain.contains blocks p then some (vChain.entry nHeight) else getAncestor blocks p nHeight with
        | none => .done none
        | some pindex => .again ⟨pindex, if vHave.length > 10 then (s.nStep * 2).bmod (2 ^ 32) else s.nStep, vHave⟩

/-- `none`: a pointer leads to no entry, or there are more entries than heights. -/
def getLocator (blocks : BlockMap) (vChain : CChain) (pindex : Option BlockPtr) : Option (List BlockPtr) :=
  let pindex := pindex.or vChain.tip
  let turns := ((pindex.bind blocks).elim 0 fun b => b.nHeight.toNat) + 1
  (loop (locatorTurn blocks vChain) turns ⟨pindex, 1, []⟩).join

/-! ## The chain of a tip -/

def ChainOf (blocks : BlockMap) (tip : BlockPtr) (vChain : CChain) : Prop :=
  ∃ b, blocks tip = some b ∧ vChain.length = b.nHeight.toNat + 1 ∧
    ∀ i ≤ b.nHeight.toNat, vChain[i]? = some (ascend blocks.pprev (b.nHeight.toNat - i) tip)

def ChainInv (blocks : BlockMap) (vChain : CChain) : Prop := vChain = [] ∨ ∃ tip, ChainOf blocks tip vChain

variable {blocks blocks' : BlockMap} {vChain vChain' : CChain} {p q r tip : BlockPtr} {b d : SkipEntry} {i n : Nat}
    {nHeight : Int}
  {l : List BlockPtr} {o : Option BlockPtr}

theorem entry_eq (h : 0 ≤ nHeight) : vChain.entry nHeight = vChain[nHeight.toNat]?.join := by
  unfold CChain.entry
  split
  · next hout =>
    rw [List.getElem?_eq_none (by omega)]
    rfl
  · rfl

/-- What a chain holds at a height is in the tree, at that height; what it holds below that are
    its ancestors. -/
theorem ChainInv.entry_eq_some (h : TreeInv blocks) (hc : ChainInv blocks vChain) (hat : vChain.entry nHeight = some p) :
    ∃ b, blocks p = some b ∧ b.nHeight = nHeight ∧
      ∀ m : Int, 0 ≤ m → m ≤ nHeight → vChain.entry m = ascend blocks.pprev (nHeight - m).toNat p := by
  rcases hc with rfl | ⟨tip, e, he, hlength, hpath⟩
  · unfold CChain.entry at hat
    split at hat <;> cases hat
  · have hnonneg := h.nonneg he
    have hrange : 0 ≤ nHeight ∧ nHeight ≤ e.nHeight := by
      unfold CChain.entry at hat
      split at hat
      · cases hat
      · omega
    have hentry (m : Int) (hm : 0 ≤ m) (hle : m ≤ e.nHeight) :
        vChain.entry m = ascend blocks.pprev (e.nHeight - m).toNat tip := by
      rw [entry_eq hm, hpath m.toNat (by omega), Option.join_some]
      congr 1
      omega
    rw [hentry nHeight hrange.1 hrange.2] at hat
    obtain ⟨q, d, hq, hd, hheight⟩ := h.ascend_isSome (n := (e.nHeight - nHeight).toNat) he (by omega)
    rw [hat, Option.some.injEq] at hq
    subst hq
    refine ⟨d, hd, by omega, fun m hm hle => ?_⟩
    have hsum : (e.nHeight - m).toNat = (e.nHeight - nHeight).toNat + (nHeight - m).toNat := by omega
    rw [hentry m hm (by omega), hsum, ascend_add hat]

theorem contains_iff (hp : blocks p = some b) : vChain.contains blocks p = true ↔ vChain.entry b.nHeight = some p := by
  unfold CChain.contains
  rw [hp]
  exact beq_iff_eq

theorem resize_eq {m : Nat} (hlt : i < m) : (resize vChain m)[i]?.join = vChain[i]?.join := by
  unfold resize
  by_cases hi : i < vChain.length
  · rw [List.getElem?_append_left (by simp; omega), List.getElem?_take_of_lt hlt]
  · rw [List.getElem?_append_right (by simp; omega), List.getElem?_eq_none (Nat.not_lt.1 hi)]
    cases hrest : (List.replicate (m - vChain.length) (none : Option BlockPtr))[i - (vChain.take m).length]? with
    | none => rfl
    | some o =>
      have hmem := List.mem_of_getElem? hrest
      rw [List.eq_of_mem_replicate hmem]
      rfl

theorem length_resize {m : Nat} : (resize vChain m).length = m := by
  unfold resize
  simp
  omega

/-! ## `SetTip` -/

/-- The chain while it is filled from the tip down: what is above `pindex` is done, what is
    not is as it was. -/
structure Fills (blocks : BlockMap) (vChain : CChain) (tip : BlockPtr) (nHeight : Int) (s : Filling) : Prop where
  length : s.vChain.length = nHeight.toNat + 1
  rest : ∀ p, s.pindex = some p → ∃ b, blocks p = some b ∧ b.nHeight ≤ nHeight ∧
    ascend blocks.pprev (nHeight - b.nHeight).toNat tip = some p ∧
    (∀ i : Nat, i ≤ b.nHeight.toNat → s.vChain[i]?.join = vChain[i]?.join) ∧
    ∀ i : Nat, b.nHeight.toNat < i → i ≤ nHeight.toNat → s.vChain[i]?.join = ascend blocks.pprev (nHeight.toNat - i) tip
  full : s.pindex = none → ∀ i ≤ nHeight.toNat, s.vChain[i]?.join = ascend blocks.pprev (nHeight.toNat - i) tip

theorem Fills.start (h : TreeInv blocks) (hb : blocks tip = some b) :
    Fills blocks vChain tip b.nHeight ⟨some tip, resize vChain (b.nHeight + 1).toNat⟩ where
  length := by
    have hnonneg := h.nonneg hb
    rw [length_resize]
    omega
  rest p hp := by
    have hnonneg := h.nonneg hb
    cases hp
    refine ⟨b, hb, le_refl _, by rw [Int.sub_self]; rfl, fun i hi => resize_eq (by omega), fun i hlt hle => ?_⟩
    omega
  full hnone := by cases hnone

theorem Fills.turn (h : TreeInv blocks) {s s' : Filling} (hs : Fills blocks vChain tip nHeight s)
    (hturn : setTipTurn blocks s = .again s') :
    Fills blocks vChain tip nHeight s' ∧ s'.pindex.elim 0 (fun p => ((blocks p).elim 0 fun b => b.nHeight.toNat) + 1) <
      s.pindex.elim 0 fun p => ((blocks p).elim 0 fun b => b.nHeight.toNat) + 1 := by
  unfold setTipTurn at hturn
  split at hturn
  · cases hturn
  · next p hpindex =>
    obtain ⟨b, hb, hle, hup, hold, hdone⟩ := hs.rest p hpindex
    rw [hb] at hturn
    dsimp only at hturn
    split at hturn
    · cases hturn
    · cases hturn
      have hnonneg := h.nonneg hb
      have hset (i : Nat) : (s.vChain.set b.nHeight.toNat (some p))[i]?.join =
          if i = b.nHeight.toNat then some p else s.vChain[i]?.join := by
        rw [List.getElem?_set]
        by_cases hi : b.nHeight.toNat = i
        · subst hi
          have hlt : b.nHeight.toNat < s.vChain.length := by rw [hs.length]; omega
          simp [hlt]
        · rw [if_neg hi, if_neg (Ne.symm hi)]
      have habove (i : Nat) (hlt : b.nHeight.toNat ≤ i) (hi : i ≤ nHeight.toNat) :
          (s.vChain.set b.nHeight.toNat (some p))[i]?.join = ascend blocks.pprev (nHeight.toNat - i) tip := by
        rw [hset]
        split
        · next heq =>
          subst heq
          rw [← hup]
          congr 1
          omega
        · exact hdone i (by omega) hi
      have hlength : (s.vChain.set b.nHeight.toNat (some p)).length = nHeight.toNat + 1 := by rw [List.length_set, hs.length]
      cases hprev : b.pprev with
      | none =>
        have hroot := h.root hb hprev
        refine ⟨⟨hlength, fun q hq => (by cases hq), fun _ i hi => habove i (by omega) hi⟩, ?_⟩
        rw [hpindex]
        simp
      | some q =>
        obtain ⟨e, he, hheight⟩ := h.parent hb hprev
        have henonneg := h.nonneg he
        refine ⟨⟨hlength, fun q' hq' => ?_, fun hnone => (by cases hnone)⟩, ?_⟩
        · cases hq'
          refine ⟨e, he, by omega, ?_, fun i hi => ?_, fun i hlt hi => habove i (by omega) hi⟩
          · have hsum : (nHeight - e.nHeight).toNat = (nHeight - b.nHeight).toNat + 1 := by omega
            rw [hsum, ascend_add hup, ascend_succ ((pprev_eq hb).trans hprev)]
            rfl
          · rw [hset, if_neg (by omega)]
            exact hold i (by omega)
        · rw [hpindex]
          simp only [Option.elim_some, he, hb]
          omega

/-- The loop leaves with the chain of the tip: it is full, or it has come to an entry of the
    chain that was there before. -/
theorem Fills.done (h : TreeInv blocks) (hc : ChainInv blocks vChain) (hb : blocks tip = some b) {s : Filling} {o : Option CChain}
    (hs : Fills blocks vChain tip b.nHeight s) (hturn : setTipTurn blocks s = .done o) :
    ∃ vChain', o = some vChain' ∧ ChainOf blocks tip vChain' := by
  have hnonneg := h.nonneg hb
  have hfull {vChain' : CChain} (hlength : vChain'.length = b.nHeight.toNat + 1)
      (hall : ∀ i ≤ b.nHeight.toNat, vChain'[i]?.join = ascend blocks.pprev (b.nHeight.toNat - i) tip) :
      ChainOf blocks tip vChain' := by
    refine ⟨b, hb, hlength, fun i hi => ?_⟩
    have hlt : i < vChain'.length := by omega
    have hentry := hall i hi
    rw [List.getElem?_eq_getElem hlt] at hentry ⊢
    rw [← hentry]
    rfl
  unfold setTipTurn at hturn
  split at hturn
  · next hnone =>
    cases hturn
    exact ⟨s.vChain, rfl, hfull hs.length (hs.full hnone)⟩
  · next p hpindex =>
    obtain ⟨d, hd, hle, hup, hold, hdone⟩ := hs.rest p hpindex
    have hdnonneg := h.nonneg hd
    rw [hd] at hturn
    dsimp only at hturn
    split at hturn
    · next hentry =>
      cases hturn
      refine ⟨s.vChain, rfl, hfull hs.length fun i hi => ?_⟩
      rw [entry_eq hdnonneg, hold _ (le_refl _), ← entry_eq hdnonneg] at hentry
      by_cases hlt : d.nHeight.toNat < i
      · exact hdone i hlt hi
      · obtain ⟨d', hd', -, hbelow⟩ := hc.entry_eq_some h hentry
        have hi' := hbelow i (by omega) (by omega)
        rw [entry_eq (by omega)] at hi'
        have hsum : b.nHeight.toNat - i = (b.nHeight - d.nHeight).toNat + (d.nHeight - i).toNat := by omega
        rw [hold i (by omega), hsum, ascend_add hup, ← hi']
        rfl
    · cases hturn

theorem setTip_spec (h : TreeInv blocks) (hc : ChainInv blocks vChain) (hb : blocks tip = some b) :
    ∃ vChain', setTip blocks vChain (some tip) = some vChain' ∧ ChainOf blocks tip vChain' := by
  have hstart : Fills blocks vChain tip b.nHeight ⟨some tip, resize vChain (b.nHeight + 1).toNat⟩ := Fills.start h hb
  have hloop : (loop (setTipTurn blocks) (b.nHeight.toNat + 2) ⟨some tip, resize vChain (b.nHeight + 1).toNat⟩).isSome := by
    apply loop_isSome_of_measure (I := Fills blocks vChain tip b.nHeight) _ (fun s s' hs hturn => hs.turn h hturn) hstart
    simp [hb]
  obtain ⟨o, ho⟩ := Option.isSome_iff_exists.1 hloop
  obtain ⟨vChain', rfl, hof⟩ := loop_spec (fun s s' hs hturn => (hs.turn h hturn).1)
    (fun s o hs hturn => hs.done h hc hb hturn) hstart ho
  refine ⟨vChain', ?_, hof⟩
  unfold setTip
  dsimp only
  rw [hb]
  dsimp only
  rw [ho]
  rfl

theorem ChainInv.setTip (h : TreeInv blocks) (hc : ChainInv blocks vChain) {pindex : Option BlockPtr}
    (hpindex : ∀ p, pindex = some p → (blocks p).isSome) (hset : Skip.setTip blocks vChain pindex = some vChain') :
    ChainInv blocks vChain' := by
  cases pindex with
  | none =>
    cases hset
    exact .inl rfl
  | some p =>
    obtain ⟨b, hb⟩ := Option.isSome_iff_exists.1 (hpindex p rfl)
    obtain ⟨vChain'', hset', hof⟩ := setTip_spec h hc hb
    rw [hset, Option.some.injEq] at hset'
    subst hset'
    exact .inr ⟨p, hof⟩

theorem ChainOf.tip_eq (h : ChainOf blocks tip vChain) : vChain.tip = some tip := by
  obtain ⟨b, -, hlength, hpath⟩ := h
  unfold CChain.tip
  have hlast : vChain.length - 1 = b.nHeight.toNat := by omega
  rw [List.getLast?_eq_getElem?, hlast, hpath _ (le_refl _), Nat.sub_self]
  rfl

/-! ## `FindFork` -/

/-- The last block that the chain and the ancestors of `p` have in common. -/
def LastCommon (blocks : BlockMap) (vChain : CChain) (p : BlockPtr) : Option BlockPtr → Prop
  | none => ∀ g, Up blocks.pprev p g → vChain.contains blocks g = false
  | some f => Up blocks.pprev p f ∧ vChain.contains blocks f = true ∧
      ∀ g, Up blocks.pprev p g → vChain.contains blocks g = true → Up blocks.pprev f g

theorem TreeInv.ranked (h : TreeInv blocks) :
    Ranked blocks.pprev (fun p => (blocks p).elim 0 fun b => b.nHeight.toNat) fun p => (blocks p).isSome := by
  intro p q hp hq
  obtain ⟨b, hb⟩ := Option.isSome_iff_exists.1 hp
  rw [pprev_eq hb] at hq
  obtain ⟨d, hd, hheight⟩ := h.parent hb hq
  have hnonneg := h.nonneg hd
  dsimp only
  rw [hb, hd]
  simp only [Option.elim_some]
  exact ⟨rfl, by omega⟩

theorem climb_lastCommon {n : Nat} (hpq : Up blocks.pprev p q)
    (hall : ∀ g, vChain.contains blocks g = true → Up blocks.pprev p g → Up blocks.pprev q g)
    (hclimb : climb blocks.pprev (vChain.contains blocks) n (some q) = some (l, o)) : LastCommon blocks vChain p o := by
  have hcommon {g : BlockPtr} (hg : vChain.contains blocks g = true) (hpg : Up blocks.pprev p g) :
      ∃ f, o = some f ∧ Up blocks.pprev f g := by
    refine (climb_covers hclimb (hall g hg hpg)).resolve_left fun hpassed => ?_
    rw [(climb_passed hclimb hpassed).1] at hg
    cases hg
  cases o with
  | none =>
    intro g hpg
    rw [Bool.eq_false_iff]
    intro hg
    obtain ⟨f, hf, -⟩ := hcommon hg hpg
    cases hf
  | some f =>
    obtain ⟨hstop, hqf, -⟩ := climb_end hclimb
    refine ⟨hpq.trans hqf, hstop, fun g hpg hg => ?_⟩
    obtain ⟨f', hf', hup⟩ := hcommon hg hpg
    cases hf'
    exact hup

theorem height_of_contains (hg : vChain.contains blocks p = true) :
    ∃ b, blocks p = some b ∧ 0 ≤ b.nHeight ∧ b.nHeight ≤ vChain.height := by
  unfold CChain.contains at hg
  cases hp : blocks p with
  | none =>
    rw [hp] at hg
    cases hg
  | some b =>
    rw [hp] at hg
    have hentry : vChain.entry b.nHeight = some p := beq_iff_eq.1 hg
    unfold CChain.entry at hentry
    unfold CChain.height
    split at hentry
    · cases hentry
    · exact ⟨b, rfl, by omega, by omega⟩

theorem up_of_height_le (h : TreeInv blocks) (hp : blocks p = some b) (hq : blocks q = some d) {g : BlockPtr} {e : SkipEntry}
    (hg : blocks g = some e) (hpq : Up blocks.pprev p q) (hpg : Up blocks.pprev p g) (hle : e.nHeight ≤ d.nHeight) :
    Up blocks.pprev q g := by
  obtain ⟨m, hm⟩ := exists_ascend hpq
  obtain ⟨k, hk⟩ := exists_ascend hpg
  have hmheight := h.height_ascend hp hm hq
  have hkheight := h.height_ascend hp hk hg
  have hsum : k = m + (k - m) := by omega
  rw [hsum, ascend_add hm] at hk
  exact up_of_ascend hk

theorem findFork_spec (h : TreeInv blocks) (hp : blocks p = some b) :
    ∃ o, findFork blocks vChain (some p) = some o ∧ LastCommon blocks vChain p o := by
  have hclimb {q : BlockPtr} {d : SkipEntry} (hq : blocks q = some d) (hle : d.nHeight ≤ b.nHeight) :
      ∃ l o, climb blocks.pprev (vChain.contains blocks) (b.nHeight.toNat + 1) (some q) = some (l, o) := by
    have hsome : (climb blocks.pprev (vChain.contains blocks) (b.nHeight.toNat + 1) (some q)).isSome = true :=
      climb_isSome h.ranked (by rw [hq]; rfl) (by rw [hq, Option.elim_some]; omega)
    obtain ⟨⟨l, o⟩, hlo⟩ := Option.isSome_iff_exists.1 hsome
    exact ⟨l, o, hlo⟩
  unfold findFork
  dsimp only
  rw [hp]
  dsimp only
  by_cases hgt : b.nHeight > vChain.height
  · rw [if_pos hgt]
    by_cases hempty : vChain.height < 0
    · rw [getAncestor_outside hp (.inl hempty), Option.bind_some, climb_none]
      refine ⟨none, rfl, fun g hpg => ?_⟩
      rw [Bool.eq_false_iff]
      intro hg
      obtain ⟨e, -, hnonneg, hle⟩ := height_of_contains hg
      omega
    · obtain ⟨q, hq, hget⟩ := getAncestor_eq h hp (not_lt.1 hempty) hgt.le
      obtain ⟨d, hd, hheight⟩ := h.exists_of_ascend hp hq
      obtain ⟨l, o, hlo⟩ := hclimb hd (by omega)
      rw [hget, Option.bind_some, hlo]
      refine ⟨o, rfl, climb_lastCommon (up_of_ascend hq) (fun g hg hpg => ?_) hlo⟩
      obtain ⟨e, he, -, hle⟩ := height_of_contains hg
      exact up_of_height_le h hp hd he (up_of_ascend hq) hpg (by omega)
  · rw [if_neg hgt, Option.bind_some]
    obtain ⟨l, o, hlo⟩ := hclimb hp (le_refl _)
    rw [hlo]
    exact ⟨o, rfl, climb_lastCommon .refl (fun g _ hpg => hpg) hlo⟩

/-! ## `GetLocator` -/

/-- Each entry is a strictly lower ancestor of the one before it, the last one is a root. -/
structure IsLocator (blocks : BlockMap) (p : BlockPtr) (vHave : List BlockPtr) : Prop where
  first : vHave.head? = some p
  descends : vHave.IsChain fun q r => ∃ d e, blocks q = some d ∧ blocks r = some e ∧ e.nHeight < d.nHeight ∧ Up blocks.pprev q r
  last : ∃ g b, vHave.getLast? = some g ∧ blocks g = some b ∧ b.nHeight = 0 ∧ b.pprev = none

/-- What a locator has so far, and where it goes on: at a height below which `nStep` does not
    lead by more than its first block is above. -/
structure Locates (blocks : BlockMap) (p : BlockPtr) (nHeight : Int) (s : Locating) : Prop where
  next : ∃ q d, s.pindex = some q ∧ blocks q = some d ∧ d.nHeight ≤ nHeight ∧
    (d.nHeight = 0 ∨ (1 ≤ s.nStep ∧ s.nStep ≤ nHeight - d.nHeight + 1)) ∧
    (s.vHave ++ [q]).head? = some p ∧
    (s.vHave ++ [q]).IsChain fun q r => ∃ d e, blocks q = some d ∧ blocks r = some e ∧ e.nHeight < d.nHeight ∧ Up blocks.pprev q r

theorem step_le {nStep nHeight low : Int} (hint : nHeight < 2 ^ 31) (hlow : 0 < low) (hpos : 1 ≤ nStep)
    (hle : nStep * 2 ≤ nHeight - low + 1) : (nStep * 2).bmod (2 ^ 32) = nStep * 2 := by
  apply Int.bmod_eq_of_le_mul_two <;> omega

/-- From the chain or by the skip pointers, the next entry is the ancestor at its height. -/
theorem next_eq (h : TreeInv blocks) (hc : ChainInv blocks vChain) (hp : blocks p = some b) {m : Int} (hm : 0 ≤ m)
    (hle : m ≤ b.nHeight) :
    ∃ q d, (if vChain.contains blocks p then some (vChain.entry m) else getAncestor blocks p m) = some (some q) ∧
      blocks q = some d ∧
      d.nHeight = m ∧ Up blocks.pprev p q := by
  have hnext : ∃ q, (if vChain.contains blocks p then some (vChain.entry m) else getAncestor blocks p m) = some (some q) ∧
      ascend blocks.pprev (b.nHeight - m).toNat p = some q := by
    by_cases hcontains : vChain.contains blocks p = true
    · obtain ⟨d, -, -, hbelow⟩ := hc.entry_eq_some h ((contains_iff hp).1 hcontains)
      obtain ⟨q, -, hq, -⟩ := h.ascend_isSome (n := (b.nHeight - m).toNat) hp (by omega)
      exact ⟨q, by rw [if_pos hcontains, hbelow m hm hle, hq], hq⟩
    · obtain ⟨q, hq, hget⟩ := getAncestor_eq h hp hm hle
      exact ⟨q, by rw [if_neg hcontains, hget], hq⟩
  obtain ⟨q, hnext, hq⟩ := hnext
  obtain ⟨d, hd, hheight⟩ := h.exists_of_ascend hp hq
  exact ⟨q, d, hnext, hd, by omega, up_of_ascend hq⟩

theorem Locates.turn (h : TreeInv blocks) (hc : ChainInv blocks vChain) (hint : nHeight < 2 ^ 31) {s s' : Locating}
    (hs : Locates blocks p nHeight s) (hturn : locatorTurn blocks vChain s = .again s') :
    Locates blocks p nHeight s' ∧ s'.pindex.elim 0 (fun p => (blocks p).elim 0 fun b => b.nHeight.toNat) <
      s.pindex.elim 0 fun p => (blocks p).elim 0 fun b => b.nHeight.toNat := by
  obtain ⟨q, d, hq, hd, hle, hstep, hfirst, hchain⟩ := hs.next
  have hnonneg := h.nonneg hd
  unfold locatorTurn at hturn
  rw [hq] at hturn
  dsimp only at hturn
  rw [hd] at hturn
  dsimp only at hturn
  split at hturn
  · cases hturn
  · next hne =>
    have hsteps := hstep.resolve_left hne
    obtain ⟨r, e, hnext, he, heheight, hup⟩ := next_eq (m := max (d.nHeight - s.nStep) 0) h hc hd (by omega) (by omega)
    rw [hnext] at hturn
    cases hturn
    refine ⟨⟨r, e, rfl, he, by omega, ?_, ?_, ?_⟩, ?_⟩
    · by_cases hroot : e.nHeight = 0
      · exact .inl hroot
      · right
        dsimp only
        split
        · rw [step_le hint (by omega : 0 < e.nHeight) hsteps.1 (by omega)]
          omega
        · omega
    · rw [List.head?_append_of_ne_nil _ (by simp), hfirst]
    · rw [List.isChain_append]
      refine ⟨hchain, List.isChain_singleton r, ?_⟩
      intro x hx y hy
      rw [List.getLast?_concat] at hx
      cases hx
      cases hy
      exact ⟨d, e, hd, he, by omega, hup⟩
    · rw [hq]
      simp only [Option.elim_some, he, hd]
      omega

theorem Locates.done (h : TreeInv blocks) (hc : ChainInv blocks vChain) {s : Locating} {o : Option (List BlockPtr)}
    (hs : Locates blocks p nHeight s) (hturn : locatorTurn blocks vChain s = .done o) :
    ∃ vHave, o = some vHave ∧ IsLocator blocks p vHave := by
  obtain ⟨q, d, hq, hd, hle, hstep, hfirst, hchain⟩ := hs.next
  have hnonneg := h.nonneg hd
  unfold locatorTurn at hturn
  rw [hq] at hturn
  dsimp only at hturn
  rw [hd] at hturn
  dsimp only at hturn
  split at hturn
  · next hroot =>
    cases hturn
    refine ⟨_, rfl, hfirst, hchain, q, d, List.getLast?_concat, hd, hroot, ?_⟩
    cases hprev : d.pprev with
    | none => rfl
    | some r =>
      obtain ⟨e, he, hheight⟩ := h.parent hd hprev
      have henonneg := h.nonneg he
      omega
  · next hne =>
    have hsteps := hstep.resolve_left hne
    obtain ⟨r, e, hnext, -⟩ := next_eq (m := max (d.nHeight - s.nStep) 0) h hc hd (by omega) (by omega)
    rw [hnext] at hturn
    cases hturn

theorem getLocator_spec (h : TreeInv blocks) (hc : ChainInv blocks vChain) (hp : blocks p = some b) (hint : b.nHeight < 2 ^ 31)
    {pindex : Option BlockPtr} (hpindex : pindex.or vChain.tip = some p) :
    ∃ vHave, getLocator blocks vChain pindex = some vHave ∧ IsLocator blocks p vHave := by
  have hstart : Locates blocks p b.nHeight ⟨some p, 1, []⟩ :=
    ⟨p, b, rfl, hp, le_refl _, by right; constructor <;> dsimp only <;> omega, rfl, List.isChain_singleton p⟩
  have hloop : (loop (locatorTurn blocks vChain) (b.nHeight.toNat + 1) ⟨some p, 1, []⟩).isSome := by
    apply loop_isSome_of_measure (I := Locates blocks p b.nHeight) _ (fun s s' hs hturn => hs.turn h hc hint hturn) hstart
    simp [hp]
  obtain ⟨o, ho⟩ := Option.isSome_iff_exists.1 hloop
  obtain ⟨vHave, rfl, hlocator⟩ :=
    loop_spec (fun s s' hs hturn => (hs.turn h hc hint hturn).1) (fun s o hs hturn => hs.done h hc hturn) hstart ho
  refine ⟨vHave, ?_, hlocator⟩
  unfold getLocator
  rw [hpindex]
  dsimp only
  rw [Option.bind_some, hp, Option.elim_some, ho]
  rfl

/-! ## What a node comes to -/

/-- The trees and active chains of a node. No block is its own parent, and heights are `int`s;
    an index is loaded by a node that has no chain yet. -/
inductive Built : BlockMap → CChain → Prop where
  | start : Built (fun _ => none) []
  | add {blocks blocks' : BlockMap} {vChain : CChain} (hash hashPrevBlock : BlockPtr) (h : Built blocks vChain)
      (hne : hashPrevBlock ≠ hash)
      (hint : ∀ prev, blocks hashPrevBlock = some prev → prev.nHeight + 1 < 2 ^ 31)
      (hadd : addToBlockIndex blocks hash hashPrevBlock = some blocks') : Built blocks' vChain
  | load {blocks blocks' : BlockMap} {vChain : CChain} (v : SortedByHeight blocks) (h : Built blocks vChain)
      (hload : loadBlockIndexDB blocks v = some blocks') : Built blocks' []
  | setTip {blocks : BlockMap} {vChain vChain' : CChain} (pindex : Option BlockPtr) (h : Built blocks vChain)
      (hpindex : ∀ p, pindex = some p → (blocks p).isSome) (hset : setTip blocks vChain pindex = some vChain') :
      Built blocks vChain'

structure BuiltInv (blocks : BlockMap) (vChain : CChain) : Prop where
  tree : TreeInv blocks
  chain : ChainInv blocks vChain
  int : ∀ p b, blocks p = some b → b.nHeight < 2 ^ 31

theorem ChainInv.mono (h : TreeInv blocks) (hc : ChainInv blocks vChain) (hkeep : Keeps blocks blocks') :
    ChainInv blocks' vChain := by
  rcases hc with rfl | ⟨tip, b, hb, hlength, hpath⟩
  · exact .inl rfl
  · obtain ⟨b', hb', -, hheight⟩ := hkeep tip b hb
    refine .inr ⟨tip, b', hb', by rw [hheight, hlength], fun i hi => ?_⟩
    rw [hkeep.ascend_eq h hb, hheight]
    exact hpath i (by omega)

theorem Built.inv (h : Built blocks vChain) : BuiltInv blocks vChain := by
  induction h with
  | start =>
    refine ⟨⟨?_, ?_, ?_, ?_⟩, .inl rfl, ?_⟩ <;> intros <;> contradiction
  | add hash hashPrevBlock _ hne hint hadd ih =>
    obtain ⟨blocks', hadd', htree, hkeep, hold⟩ := ih.tree.add hne
    rw [hadd, Option.some.injEq] at hadd'
    subst hadd'
    refine ⟨htree, ih.chain.mono ih.tree hkeep, fun p b hb => ?_⟩
    rcases hold p b hb with ⟨d, hd, hheight⟩ | hheight | ⟨prev, hprev, hheight⟩
    · rw [hheight]
      exact ih.int p d hd
    · rw [hheight]
      decide
    · rw [hheight]
      exact hint prev hprev
  | load v _ hload ih =>
    obtain ⟨blocks', hload', htree, hsame⟩ := ih.tree.load v
    rw [hload, Option.some.injEq] at hload'
    subst hload'
    refine ⟨htree, .inl rfl, fun p b hb => ?_⟩
    obtain ⟨d, hd, -, hheight⟩ := hsame.symm.some hb
    rw [← hheight]
    exact ih.int p d hd
  | setTip pindex _ hpindex hset ih => exact ⟨ih.tree, ih.chain.setTip ih.tree hpindex hset, ih.int⟩

/-- The queries of a node: `GetAncestor` by what `pprev` leads to and each move of its walk,
    `FindFork` and `GetLocator`. -/
theorem chain_queries (h : Built blocks vChain) (hp : blocks p = some b) :
    (∀ height : Int, (height < 0 ∨ b.nHeight < height → getAncestor blocks p height = some none) ∧
      (0 ≤ height → height ≤ b.nHeight →
        (∃ q, ascend blocks.pprev (b.nHeight - height).toNat p = some q ∧ getAncestor blocks p height = some (some q)) ∧
        ∀ w w', Comes (walkTurn blocks height) ⟨p, b.nHeight⟩ w → walkTurn blocks height w = .again w' →
          ∃ d d', blocks w.pindexWalk = some d ∧ blocks w'.pindexWalk = some d' ∧ d'.nHeight < d.nHeight ∧ height ≤ d'.nHeight)) ∧
    (∃ o, findFork blocks vChain (some p) = some o ∧ LastCommon blocks vChain p o) ∧
    ∀ pindex : Option BlockPtr, pindex.or vChain.tip = some p →
      ∃ vHave, getLocator blocks vChain pindex = some vHave ∧ IsLocator blocks p vHave := by
  have hinv := h.inv
  refine ⟨fun height => ⟨getAncestor_outside hp, fun hheight hle => ⟨getAncestor_eq hinv.tree hp hheight hle, ?_⟩⟩,
    findFork_spec hinv.tree hp, fun pindex => getLocator_spec hinv.tree hinv.chain hp (hinv.int p b hp)⟩
  intro w w' hcomes hturn
  have hw := comes_keeps hcomes (walking_start hp hle) fun w w' hw hturn => (hw.turn hinv.tree hheight hp hturn).1
  obtain ⟨hw', hlt⟩ := hw.turn hinv.tree hheight hp hturn
  obtain ⟨d, hd, hdheight⟩ := hw.entry
  obtain ⟨d', hd', hdheight'⟩ := hw'.entry
  have habove := hw'.above
  exact ⟨d, d', hd, hd', by omega, by omega⟩

/-- The genesis block and one block on it, which is the tip. -/
theorem chain_queries_child : ∃ blocks vChain b, Built blocks vChain ∧ blocks 1 = some b ∧
    getAncestor blocks 1 0 = some (some 0) ∧
    ∃ o, findFork blocks vChain (some 1) = some o ∧ LastCommon blocks vChain 1 o := by
  have hgenesis := Built.add 0 7 .start (by decide) (fun prev hprev => (by cases hprev)) rfl
  have hint : ∀ prev : SkipEntry, (Function.update (fun _ => none) 0 (some ⟨none, none, 0⟩) : BlockMap) 0 = some prev →
      prev.nHeight + 1 < 2 ^ 31 := by
    intro prev hprev
    cases hprev
    decide
  have hchild := Built.add 1 0 hgenesis (by decide) hint rfl
  have htip := Built.setTip (some 1) hchild (fun p hp => (by cases hp; rfl)) rfl
  obtain ⟨hancestor, hfork, -⟩ := chain_queries htip (p := 1) rfl
  obtain ⟨⟨q, hq, hget⟩, -⟩ := (hancestor 0).2 (by decide) (by decide)
  cases hq
  exact ⟨_, _, _, htip, rfl, hget, hfork⟩

end Zumy.BlockIndex.Skip
