/-
  Zumy.BlockIndex.MostWork — the best usable candidate is found, and becomes the tip.

  A candidate is usable where every block on its path that is not in the active chain has
  its data and has not failed.
  (1) `findMostWorkChain_spec`: each turn of the loop removes the best candidate, and only
      unusable ones with it, so the loop ends with the best usable one.
  (2) `activateBestChainStep_toward`: a step marks and removes; what it adds to the active
      chain is on the path it aims at. So no candidate becomes usable by it
      (`Toward.usable`), and the aim stays the best.
  (3) `most_work_wins`: both, over all that `ActivateBestChain` does.
-/
import Zumy.BlockIndex.Model

namespace Zumy.BlockIndex

open Zumy.Lib IndexState

variable {s t u : IndexState} {p q a b : BlockPtr}

/-! ## The order of the candidates -/

theorem workKey_lt : s.workKey p < s.workKey q ↔
    (s.blocks p).nChainWork < (s.blocks q).nChainWork ∨
      (s.blocks p).nChainWork = (s.blocks q).nChainWork ∧
        ((s.blocks q).nSequenceId < (s.blocks p).nSequenceId ∨ (s.blocks p).nSequenceId = (s.blocks q).nSequenceId ∧ q < p) := by
  unfold workKey
  rw [Prod.Lex.toLex_lt_toLex, Prod.Lex.toLex_lt_toLex, OrderDual.toDual_lt_toDual, OrderDual.toDual_inj]
  exact Iff.rfl

theorem comparator_iff : s.blockIndexWorkComparator p q = true ↔ s.workKey p < s.workKey q := by
  rw [workKey_lt]
  unfold blockIndexWorkComparator
  split_ifs <;> grind

theorem workKey_inj (h : s.workKey p = s.workKey q) : p = q := by
  simpa [workKey] using congrArg (fun k => (ofLex (ofLex k).2).2) h

theorem le_of_comparator (h : s.blockIndexWorkComparator p q = true) : (s.blocks p).nChainWork ≤ (s.blocks q).nChainWork := by
  unfold blockIndexWorkComparator at h
  by_contra hlt
  rw [if_pos (by omega)] at h
  cases h

theorem rbegin_some (h : s.rbegin = some p) :
    p ∈ s.setBlockIndexCandidates ∧ ∀ q ∈ s.setBlockIndexCandidates, q = p ∨ s.blockIndexWorkComparator q p = true := by
  refine ⟨List.argmax_mem h, fun q hq => ?_⟩
  rcases (List.le_of_mem_argmax hq h).lt_or_eq with hlt | heq
  · exact .inr (comparator_iff.2 hlt)
  · exact .inl (workKey_inj heq)

theorem rbegin_none : s.rbegin = none ↔ s.setBlockIndexCandidates = [] := List.argmax_eq_none

/-! ## The block tree -/

def Ok (s : IndexState) (p : BlockPtr) : Prop := (s.blocks p).nStatus.failed = false ∧ (s.blocks p).nStatus.haveData = true

def Usable (s : IndexState) (p : BlockPtr) : Prop := ∀ q, Up s.pprev p q → q ∈ s.chainActive ∨ Ok s q

/-- Of what `CheckBlockIndex` asserts. -/
structure IndexInv (s : IndexState) : Prop where
  parent : ∀ p ∈ s.mapBlockIndex, ∀ q, s.pprev p = some q → q ∈ s.mapBlockIndex ∧ (s.blocks p).nHeight = (s.blocks q).nHeight + 1
  height : ∀ p ∈ s.mapBlockIndex, 0 ≤ (s.blocks p).nHeight
  processed : ∀ p ∈ s.mapBlockIndex, (s.blocks p).nChainTx ≠ 0 → ∀ q, s.pprev p = some q → (s.blocks q).nChainTx ≠ 0
  candidates : ∀ p ∈ s.setBlockIndexCandidates, p ∈ s.mapBlockIndex ∧ (s.blocks p).nChainTx ≠ 0
  active : ∀ p ∈ s.chainActive, p ∈ s.mapBlockIndex
  linked : s.chainActive.IsChain fun p q => s.pprev p = some q
  /-- There is only one entry without a parent. -/
  genesis : ∃ g, s.chainActive.getLast? = some g ∧ s.pprev g = none ∧ ∀ p ∈ s.mapBlockIndex, s.pprev p = none → p = g

namespace IndexInv

theorem ranked (h : IndexInv s) : Ranked s.pprev (fun p => (s.blocks p).nHeight.toNat) (· ∈ s.mapBlockIndex) := by
  intro p q hp hq
  obtain ⟨hmem, hheight⟩ := h.parent p hp q hq
  have hnonneg := h.height q hmem
  refine ⟨hmem, ?_⟩
  show (s.blocks q).nHeight.toNat < (s.blocks p).nHeight.toNat
  omega

theorem climb_eq (h : IndexInv s) (hp : p ∈ s.mapBlockIndex) (stop : BlockPtr → Bool) :
    ∃ l r, climb s.pprev stop (s.turns p) (some p) = some (l, r) := by
  have hsome : (climb s.pprev stop (s.turns p) (some p)).isSome := climb_isSome h.ranked hp (Nat.lt_succ_self _)
  obtain ⟨⟨l, r⟩, heq⟩ := Option.isSome_iff_exists.1 hsome
  exact ⟨l, r, heq⟩

theorem known (h : IndexInv s) (hp : p ∈ s.mapBlockIndex) (hup : Up s.pprev p q) : q ∈ s.mapBlockIndex :=
  hup.closed (fun a b ha hb => (h.parent a ha b hb).1) hp

theorem closed (h : IndexInv s) (hp : p ∈ s.chainActive) (hup : Up s.pprev p q) : q ∈ s.chainActive := by
  obtain ⟨g, hlast, hroot, -⟩ := h.genesis
  refine hup.mem_of_isChain h.linked ?_ hp
  intro g' hg'
  rw [hlast] at hg'
  cases hg'
  exact hroot

theorem exists_tip (h : IndexInv s) : ∃ tip, s.tip = some tip := by
  obtain ⟨g, hlast, -⟩ := h.genesis
  cases hchain : s.chainActive with
  | nil => simp [hchain] at hlast
  | cons tip rest => exact ⟨tip, by simp [IndexState.tip, hchain]⟩

end IndexInv

/-! ## What marks and removes only -/

structure Marked (b b' : CBlockIndex) : Prop where
  pprev : b'.pprev = b.pprev
  nHeight : b'.nHeight = b.nHeight
  nChainWork : b'.nChainWork = b.nChainWork
  nChainTx : b'.nChainTx = b.nChainTx
  nSequenceId : b'.nSequenceId = b.nSequenceId
  failed : b'.nStatus.failed = false → b.nStatus.failed = false
  haveData : b'.nStatus.haveData = true → b.nStatus.haveData = true

theorem Marked.refl {b : CBlockIndex} : Marked b b := ⟨rfl, rfl, rfl, rfl, rfl, id, id⟩

theorem Marked.trans {b b' b'' : CBlockIndex} (h : Marked b b') (h' : Marked b' b'') : Marked b b'' where
  pprev := h'.pprev.trans h.pprev
  nHeight := h'.nHeight.trans h.nHeight
  nChainWork := h'.nChainWork.trans h.nChainWork
  nChainTx := h'.nChainTx.trans h.nChainTx
  nSequenceId := h'.nSequenceId.trans h.nSequenceId
  failed := h.failed ∘ h'.failed
  haveData := h.haveData ∘ h'.haveData

structure Later (s t : IndexState) : Prop where
  index : t.mapBlockIndex = s.mapBlockIndex
  blocks : ∀ p, Marked (s.blocks p) (t.blocks p)
  candidates : ∀ p ∈ t.setBlockIndexCandidates, p ∈ s.setBlockIndexCandidates

namespace Later

theorem refl : Later s s := ⟨rfl, fun _ => .refl, fun _ hp => hp⟩

theorem trans (h : Later s t) (h' : Later t u) : Later s u where
  index := h'.index.trans h.index
  blocks p := (h.blocks p).trans (h'.blocks p)
  candidates p hp := h.candidates p (h'.candidates p hp)

theorem pprev (h : Later s t) : t.pprev = s.pprev := funext fun p => (h.blocks p).pprev

theorem ok (h : Later s t) (hp : Ok t p) : Ok s p := ⟨(h.blocks p).failed hp.1, (h.blocks p).haveData hp.2⟩

theorem comparator (h : Later s t) : t.blockIndexWorkComparator p q = s.blockIndexWorkComparator p q := by
  unfold blockIndexWorkComparator
  rw [(h.blocks p).nChainWork, (h.blocks q).nChainWork, (h.blocks p).nSequenceId, (h.blocks q).nSequenceId]

end Later

structure Kept (s t : IndexState) : Prop extends Later s t where
  active : t.chainActive = s.chainActive

namespace Kept

theorem refl : Kept s s := ⟨.refl, rfl⟩

theorem trans (h : Kept s t) (h' : Kept t u) : Kept s u := ⟨h.toLater.trans h'.toLater, h'.active.trans h.active⟩

theorem modify {f : CBlockIndex → CBlockIndex} (hf : Marked (s.blocks p) (f (s.blocks p))) : Kept s (s.modify p f) where
  index := rfl
  blocks q := by
    rw [modify_blocks]
    split
    · next hq =>
      rw [hq]
      exact hf
    · exact .refl
  candidates _ hp := hp
  active := rfl

theorem failed {f : BlockStatus → BlockStatus} (hf : ∀ b, (f b).failed = false → b.failed = false)
    (hd : ∀ b, (f b).haveData = b.haveData) :
    Kept s (s.modifyStatus p f) :=
  modify ⟨rfl, rfl, rfl, rfl, rfl, hf _, fun h => (hd _).symm.trans h⟩

theorem eraseCandidate : Kept s (s.eraseCandidate p) := ⟨⟨rfl, fun _ => .refl, fun _ hq => (List.mem_filter.1 hq).1⟩, rfl⟩

theorem noteInvalid : Kept s (s.noteInvalid p) := by
  unfold IndexState.noteInvalid
  split
  · exact ⟨⟨rfl, fun _ => .refl, fun _ hq => hq⟩, rfl⟩
  · exact .refl

theorem pruneEntry (n : Nat) : Kept s (IndexState.pruneEntry n s p) := by
  unfold IndexState.pruneEntry
  split
  · have hpruned : Marked (s.blocks p) (s.blocks p).pruned := ⟨rfl, rfl, rfl, rfl, rfl, id, fun h => by cases h⟩
    exact ⟨⟨rfl, (modify hpruned).blocks, fun _ hq => hq⟩, rfl⟩
  · exact .refl

theorem foldl {β : Type*} {f : IndexState → β → IndexState} (hf : ∀ s b, Kept s (f s b)) (l : List β) : Kept s (l.foldl f s) := by
  induction l generalizing s with
  | nil => exact .refl
  | cons b l ih => exact (hf s b).trans ih

theorem pruneFiles (files : List Nat) : Kept s (s.pruneFiles files) :=
  foldl (fun _ n => foldl (fun _ _ => pruneEntry n) _) files

theorem noteUndo : Kept s (s.noteUndo p) := by
  unfold IndexState.noteUndo
  dsimp only
  split
  · apply Kept.modify
    unfold CBlockIndex.raiseValidity
    split
    · exact ⟨rfl, rfl, rfl, rfl, rfl, id, id⟩
    · split
      · exact ⟨rfl, rfl, rfl, rfl, rfl, id, id⟩
      · exact ⟨rfl, rfl, rfl, rfl, rfl, id, id⟩
  · exact .refl

theorem invalidChainFound (h : s.invalidChainFound p = some t) : Kept s t := by
  unfold IndexState.invalidChainFound at h
  cases htip : s.tip with
  | none => simp [htip] at h
  | some tip =>
    simp only [htip, Option.map_some, Option.some.injEq] at h
    rw [← h]
    exact .noteInvalid

theorem invalidBlockFound {corruptionPossible : Bool} (h : s.invalidBlockFound p corruptionPossible = some t) : Kept s t := by
  cases corruptionPossible with
  | true =>
    cases h
    exact .refl
  | false =>
    have hmark : Kept s (s.modifyStatus p ({ · with failedValid := true })) :=
      .failed (by simp [BlockStatus.failed]) (fun _ => rfl)
    exact (hmark.trans .eraseCandidate).trans (.invalidChainFound (by simpa [IndexState.invalidBlockFound] using h))

end Kept

theorem IndexInv.kept (h : IndexInv s) (hl : Kept s t) : IndexInv t where
  parent p hp q hq := by
    rw [hl.index] at hp ⊢
    rw [hl.pprev] at hq
    rw [(hl.blocks p).nHeight, (hl.blocks q).nHeight]
    exact h.parent p hp q hq
  height p hp := by
    rw [hl.index] at hp
    rw [(hl.blocks p).nHeight]
    exact h.height p hp
  processed p hp hne q hq := by
    rw [hl.index] at hp
    rw [(hl.blocks p).nChainTx] at hne
    rw [hl.pprev] at hq
    rw [(hl.blocks q).nChainTx]
    exact h.processed p hp hne q hq
  candidates p hp := by
    rw [hl.index, (hl.blocks p).nChainTx]
    exact h.candidates p (hl.candidates p hp)
  active p hp := by
    rw [hl.index]
    rw [hl.active] at hp
    exact h.active p hp
  linked := by
    rw [hl.active, hl.pprev]
    exact h.linked
  genesis := by
    rw [hl.active, hl.pprev, hl.index]
    exact h.genesis

/-! ## `FindMostWorkChain` -/

/-- The walk down from a candidate ends in the active chain, or at a block that is not usable. -/
theorem pindexTest_cases (h : IndexInv s) (hp : p ∈ s.setBlockIndexCandidates) :
    (s.pindexTest p = some none ∧ Usable s p) ∨
      ∃ q, s.pindexTest p = some (some q) ∧ Up s.pprev p q ∧ q ∉ s.chainActive ∧ ¬ Ok s q := by
  obtain ⟨hmem, hne⟩ := h.candidates p hp
  obtain ⟨l, r, hclimb⟩ := h.climb_eq hmem fun q =>
    s.contains q || !decide ((s.blocks q).nChainTx ≠ 0 ∨ (s.blocks q).nHeight = 0) ||
      ((s.blocks q).nStatus.failed || !(s.blocks q).nStatus.haveData)
  have hpassed (q : BlockPtr) (hq : q ∈ l) : Ok s q := by
    have hstop := (climb_passed hclimb hq).1
    simp only [Bool.or_eq_false_iff, Bool.not_eq_false'] at hstop
    exact hstop.2
  cases r with
  | none =>
    refine .inl ⟨by simp only [pindexTest, hclimb, Option.bind_some], fun q hq => ?_⟩
    rcases climb_covers hclimb hq with hq | ⟨b, hb, -⟩
    · exact .inr (hpassed q hq)
    · cases hb
  | some q =>
    obtain ⟨hstop, hup, -⟩ := climb_end hclimb
    by_cases hactive : q ∈ s.chainActive
    · left
      have heq : s.pindexTest p = some none := by
        simp only [pindexTest, hclimb, Option.bind_some]
        simp [contains, hactive]
      refine ⟨heq, fun x hx => ?_⟩
      rcases climb_covers hclimb hx with hx | ⟨b, hb, hbx⟩
      · exact .inr (hpassed x hx)
      · cases hb
        exact .inl (h.closed hactive hbx)
    · right
      have hlinked : (s.blocks q).nChainTx ≠ 0 := by
        have hboth := hup.closed (S := fun a => a ∈ s.mapBlockIndex ∧ (s.blocks a).nChainTx ≠ 0)
          (fun a b ha hb => ⟨(h.parent a ha.1 b hb).1, h.processed a ha.1 ha.2 b hb⟩) ⟨hmem, hne⟩
        exact hboth.2
      have heq : s.pindexTest p = some (some q) := by
        simp only [pindexTest, hclimb, Option.bind_some]
        simp [contains, hactive, hlinked]
      refine ⟨q, heq, hup, hactive, fun hok => ?_⟩
      simp [contains, hactive, hlinked, hok.1, hok.2] at hstop

structure Discarded (s : IndexState) (l : List BlockPtr) (t : IndexState) : Prop where
  kept : Kept s t
  candidates : t.setBlockIndexCandidates = s.setBlockIndexCandidates.filter (· ∉ l)
  others : ∀ p ∉ l, (t.blocks p).nStatus = (s.blocks p).nStatus

theorem Discarded.refl : Discarded s [] s := ⟨.refl, by simp, fun _ _ => rfl⟩

theorem Discarded.trans {l l' : List BlockPtr} (h : Discarded s l t) (h' : Discarded t l' u) : Discarded s (l ++ l') u where
  kept := h.kept.trans h'.kept
  candidates := by
    rw [h'.candidates, h.candidates, List.filter_filter]
    simp [Bool.and_comm]
  others p hp := by
    rw [List.mem_append, not_or] at hp
    rw [h'.others p hp.2, h.others p hp.1]

theorem Discarded.eraseCandidate : Discarded s [p] (s.eraseCandidate p) :=
  ⟨.eraseCandidate, by simp [IndexState.eraseCandidate], fun _ _ => rfl⟩

theorem discardEntry_discarded (fFailedChain : Bool) (s : IndexState) (p : BlockPtr) :
    Discarded s [p] (discardEntry fFailedChain s p) := by
  cases fFailedChain with
  | false =>
    exact ⟨⟨⟨rfl, fun _ => .refl, fun _ hq => (List.mem_filter.1 hq).1⟩, rfl⟩,
      by simp [discardEntry, IndexState.eraseCandidate], fun _ _ => rfl⟩
  | true =>
    have hmark : Kept s (s.modifyStatus p ({ · with failedChild := true })) :=
      .failed (by simp [BlockStatus.failed]) (fun _ => rfl)
    refine ⟨hmark.trans .eraseCandidate, by simp [discardEntry, IndexState.eraseCandidate, modifyStatus, IndexState.modify],
      fun q hq => ?_⟩
    show ((s.modifyStatus p ({ · with failedChild := true })).blocks q).nStatus = (s.blocks q).nStatus
    rw [modifyStatus, modify_blocks, if_neg (by simpa using hq)]

theorem foldl_discardEntry (fFailedChain : Bool) (l : List BlockPtr) (s : IndexState) :
    Discarded s l (l.foldl (discardEntry fFailedChain) s) := by
  induction l generalizing s with
  | nil => exact .refl
  | cons p l ih => exact (discardEntry_discarded fFailedChain s p).trans (ih _)

theorem discard_discarded (h : IndexInv s) (hp : p ∈ s.mapBlockIndex) (hup : Up s.pprev p q) :
    ∃ t l, s.discard p q = some t ∧ Discarded s l t ∧ p ∈ l ∧ ∀ x ∈ l, Up s.pprev x q := by
  have hnote : Discarded s [] (if (s.blocks q).nStatus.failed then s.noteInvalid p else s) := by
    split
    · refine ⟨.noteInvalid, ?_, fun _ _ => ?_⟩ <;> unfold IndexState.noteInvalid <;> split <;> simp
    · exact .refl
  obtain ⟨l, r, hclimb⟩ := h.climb_eq hp fun x => decide (x = q)
  have hend : r = some q ∧ ∀ x ∈ l, Up s.pprev x q := by
    rcases climb_covers hclimb hup with hq | ⟨b, rfl, -⟩
    · have hfalse := (climb_passed hclimb hq).1
      simp at hfalse
    · obtain ⟨hstop, -, hall⟩ := climb_end hclimb
      obtain rfl : b = q := by simpa using hstop
      exact ⟨rfl, hall⟩
  have hhead : p ∈ l ++ [q] := by
    rcases climb_some hclimb with ⟨hstop, -, -⟩ | ⟨-, n, l', -, -, rfl⟩
    · simp [of_decide_eq_true hstop]
    · simp
  refine ⟨_, l ++ [q], ?_, hnote.trans ((foldl_discardEntry (s.blocks q).nStatus.failed l _).trans .eraseCandidate), hhead, ?_⟩
  · simp only [IndexState.discard, hclimb, Option.map_some]
  · intro x hx
    rcases List.mem_append.1 hx with hx | hx
    · exact hend.2 x hx
    · rw [List.mem_singleton.1 hx]
      exact .refl

structure Narrowed (s t : IndexState) : Prop where
  kept : Kept s t
  removed : ∀ p ∈ s.setBlockIndexCandidates, p ∉ t.setBlockIndexCandidates → ¬ Usable s p
  usable : ∀ p, Usable t p ↔ Usable s p

theorem Narrowed.refl : Narrowed s s := ⟨.refl, fun _ hp hp' => absurd hp hp', fun _ => Iff.rfl⟩

theorem Narrowed.trans (h : Narrowed s t) (h' : Narrowed t u) : Narrowed s u where
  kept := h.kept.trans h'.kept
  removed p hp hnot := by
    by_cases ht : p ∈ t.setBlockIndexCandidates
    · exact fun hu => h'.removed p ht hnot ((h.usable p).2 hu)
    · exact h.removed p hp ht
  usable p := (h'.usable p).trans (h.usable p)

theorem Discarded.narrowed {l : List BlockPtr} (h : Discarded s l t) (hall : ∀ x ∈ l, Up s.pprev x q)
    (hactive : q ∉ s.chainActive)
    (hbad : ¬ Ok s q) : Narrowed s t := by
  have hnot (p : BlockPtr) (hup : Up s.pprev p q) : ¬ Usable s p := fun hu => (hu q hup).elim hactive hbad
  refine ⟨h.kept, fun p hp hp' => ?_, fun p => ⟨fun hu x hx => ?_, fun hu x hx => ?_⟩⟩
  · rw [h.candidates, List.mem_filter, not_and] at hp'
    exact hnot p (hall p (by simpa using hp' hp))
  · rw [← h.kept.active]
    rw [← h.kept.pprev] at hx
    exact (hu x hx).imp_right h.kept.ok
  · rw [h.kept.pprev] at hx
    rw [h.kept.active]
    refine (hu x hx).imp_right fun hok => ?_
    have hmem : x ∉ l := fun hxl => hnot p (hx.trans (hall x hxl)) hu
    unfold Ok
    rw [h.others x hmem]
    exact hok

theorem findMostWorkLoop_spec {n : Nat} (h : IndexInv s) (hn : s.setBlockIndexCandidates.length < n) :
    ∃ t best, findMostWorkLoop n s = some (t, best) ∧ Narrowed s t ∧ t.rbegin = best ∧ ∀ p, best = some p → Usable s p := by
  induction n generalizing s with
  | zero => omega
  | succ n ih =>
    unfold findMostWorkLoop
    cases hbest : s.rbegin with
    | none => exact ⟨s, none, rfl, .refl, hbest, nofun⟩
    | some p =>
      obtain ⟨hp, -⟩ := rbegin_some hbest
      rcases pindexTest_cases h hp with ⟨heq, hu⟩ | ⟨q, heq, hup, hactive, hbad⟩
      · refine ⟨s, some p, by simp [heq], .refl, hbest, fun p' hp' => ?_⟩
        cases hp'
        exact hu
      · obtain ⟨t, l, hdiscard, hd, hpl, hall⟩ := discard_discarded h (h.candidates p hp).1 hup
        have hnarrow := hd.narrowed hall hactive hbad
        have hlt : t.setBlockIndexCandidates.length < s.setBlockIndexCandidates.length := by
          rw [hd.candidates]
          exact List.length_filter_lt_length_iff_exists.2 ⟨p, hp, by simpa using hpl⟩
        obtain ⟨u, best, hloop, hnarrow', hbest', hu⟩ := ih (h.kept hd.kept) (by omega)
        exact ⟨u, best, by simp [heq, hdiscard, hloop], hnarrow.trans hnarrow', hbest',
          fun p' hp' => (hnarrow.usable p').1 (hu p' hp')⟩

theorem findMostWorkChain_spec (h : IndexInv s) :
    ∃ t best, s.findMostWorkChain = some (t, best) ∧ Narrowed s t ∧ t.rbegin = best ∧ ∀ p, best = some p → Usable s p :=
  findMostWorkLoop_spec h (Nat.lt_succ_self _)

/-! ## On the way to a block -/

/-- What is reached from `s` on the way to `p`: the active chain has blocks of `s`'s, and of the path. -/
structure Toward (s : IndexState) (p : BlockPtr) (t : IndexState) : Prop where
  later : Later s t
  active : ∀ q ∈ t.chainActive, q ∈ s.chainActive ∨ Up s.pprev p q

namespace Toward

theorem refl : Toward s p s := ⟨.refl, fun _ hq => .inl hq⟩

theorem trans (h : Toward s p t) (h' : Toward t p u) : Toward s p u where
  later := h.later.trans h'.later
  active q hq := by
    rcases h'.active q hq with hq | hup
    · exact h.active q hq
    · rw [h.later.pprev] at hup
      exact .inr hup

theorem of_kept (h : Kept s t) : Toward s p t := ⟨h.toLater, fun _ hq => .inl (h.active ▸ hq)⟩

theorem usable (h : Toward s p t) (hp : Usable s p) (hq : Usable t q) : Usable s q := by
  intro x hx
  have hx' : Up t.pprev q x := by rwa [h.later.pprev]
  rcases hq x hx' with hactive | hok
  · exact (h.active x hactive).elim .inl (hp x)
  · exact .inr (h.later.ok hok)

end Toward

theorem IndexInv.withActive (h : IndexInv s) {chain : List BlockPtr} (hknown : ∀ p ∈ chain, p ∈ s.mapBlockIndex)
    (hlinked : chain.IsChain fun p q => s.pprev p = some q) (hlast : chain.getLast? = s.chainActive.getLast?) :
    IndexInv { s with chainActive := chain } where
  parent := h.parent
  height := h.height
  processed := h.processed
  candidates := h.candidates
  active := hknown
  linked := hlinked
  genesis := by
    show ∃ g, chain.getLast? = some g ∧ _
    rw [hlast]
    exact h.genesis

theorem disconnectTip_toward {outcome : BlockPtr → DisconnectOutcome} {ok : Bool} (h : IndexInv s) (hp : p ∈ s.chainActive)
    (htip : s.tip ≠ some p) (hd : s.disconnectTip outcome = some (t, ok)) : IndexInv t ∧ Toward s q t ∧ p ∈ t.chainActive := by
  unfold disconnectTip at hd
  cases hchain : s.chainActive with
  | nil => simp [hchain] at hd
  | cons a rest =>
    rw [hchain] at hp
    have hrest : p ∈ rest := by
      rcases List.mem_cons.1 hp with rfl | hp
      · simp [IndexState.tip, hchain] at htip
      · exact hp
    simp only [hchain] at hd
    cases houtcome : outcome a with
    | disconnected files =>
      simp only [houtcome, Option.some.injEq, Prod.mk.injEq] at hd
      obtain ⟨rfl, -⟩ := hd
      have hkept : Kept s (s.pruneFiles files) := .pruneFiles files
      have hinv := h.kept hkept
      have hactive : (s.pruneFiles files).chainActive = a :: rest := hkept.active.trans hchain
      have hlinked := hinv.linked
      rw [hactive] at hlinked
      refine ⟨hinv.withActive (fun x hx => hinv.active x ?_) hlinked.tail ?_,
        ⟨⟨hkept.index, hkept.blocks, hkept.candidates⟩, ?_⟩, hrest⟩
      · rw [hactive]
        exact List.mem_cons_of_mem a hx
      · rw [hactive]
        cases rest with
        | nil => cases hrest
        | cons b rest => rw [List.getLast?_cons_cons]
      · intro x hx
        rw [hchain]
        exact .inl (List.mem_cons_of_mem a hx)
    | failed files =>
      simp only [houtcome, Option.some.injEq, Prod.mk.injEq] at hd
      obtain ⟨rfl, -⟩ := hd
      have hkept : Kept s (s.pruneFiles files) := .pruneFiles files
      refine ⟨h.kept hkept, .of_kept hkept, ?_⟩
      rw [hkept.active, hchain]
      exact hp

theorem disconnectTo_toward {outcome : BlockPtr → DisconnectOutcome} {ok : Bool} {n : Nat} (h : IndexInv s)
    (hp : p ∈ s.chainActive)
    (hd : disconnectTo outcome (some p) n s = some (t, ok)) : IndexInv t ∧ Toward s q t := by
  induction n generalizing s with
  | zero =>
    cases hd
    exact ⟨h, .refl⟩
  | succ n ih =>
    unfold disconnectTo at hd
    split at hd
    · cases hd
      exact ⟨h, .refl⟩
    · next hmore =>
      obtain ⟨⟨u, ok'⟩, hone, hrest⟩ := Option.bind_eq_some_iff.1 hd
      obtain ⟨hinv, htoward, hmem⟩ := disconnectTip_toward (q := q) h hp (fun htip => hmore (.inr htip)) hone
      cases ok' with
      | true =>
        obtain ⟨hinv', htoward'⟩ := ih hinv hmem hrest
        exact ⟨hinv', htoward.trans htoward'⟩
      | false =>
        cases hrest
        exact ⟨hinv, htoward⟩

theorem findFork_eq (h : IndexInv s) (hp : p ∈ s.mapBlockIndex) : ∃ f, s.findFork p = some (some f) ∧ f ∈ s.chainActive := by
  obtain ⟨l, r, hclimb⟩ := h.climb_eq hp s.contains
  obtain ⟨g, hlast, -, huniq⟩ := h.genesis
  obtain ⟨root, hup, hroot, hnone⟩ := exists_root h.ranked hp
  obtain rfl := huniq root hroot hnone
  have hmem : root ∈ s.chainActive := List.mem_of_getLast? hlast
  rcases climb_covers hclimb hup with hl | ⟨f, rfl, -⟩
  · have hfalse := (climb_passed hclimb hl).1
    simp [contains, hmem] at hfalse
  · exact ⟨f, by simp [findFork, hclimb], of_decide_eq_true (climb_end hclimb).1⟩

theorem connectTip_toward {outcome : BlockPtr → ConnectOutcome} {progress : Progress} (h : IndexInv s) (hp : p ∈ s.mapBlockIndex)
    (hup : Up s.pprev q p) (hc : s.connectTip outcome p = some (t, progress)) : IndexInv t ∧ Toward s q t := by
  unfold connectTip at hc
  split at hc
  · next htip =>
    cases houtcome : outcome p with
    | connected files =>
      simp only [houtcome, Option.some.injEq, Prod.mk.injEq] at hc
      obtain ⟨rfl, -⟩ := hc
      have hkept : Kept s ((s.noteUndo p).pruneFiles files) := Kept.noteUndo.trans (.pruneFiles files)
      have hinv := h.kept hkept
      have hlinked := hinv.linked
      rw [hkept.active, hkept.pprev] at hlinked
      refine ⟨hinv.withActive ?_ ?_ ?_, ⟨⟨hkept.index, hkept.blocks, hkept.candidates⟩, ?_⟩⟩
      · intro x hx
        rw [hkept.index]
        rcases List.mem_cons.1 hx with rfl | hx
        · exact hp
        · exact h.active x hx
      · rw [hkept.pprev, List.isChain_cons]
        exact ⟨fun y hy => htip.trans hy, hlinked⟩
      · rw [hkept.active]
        obtain ⟨g, hlast, -⟩ := h.genesis
        cases hchain : s.chainActive with
        | nil => simp [hchain] at hlast
        | cons a rest => rw [List.getLast?_cons_cons]
      · intro x hx
        rcases List.mem_cons.1 hx with rfl | hx
        · exact .inr hup
        · exact .inl hx
    | notFlushed files =>
      simp only [houtcome, Option.some.injEq, Prod.mk.injEq] at hc
      obtain ⟨rfl, -⟩ := hc
      have hkept : Kept s ((s.noteUndo p).pruneFiles files) := Kept.noteUndo.trans (.pruneFiles files)
      exact ⟨h.kept hkept, .of_kept hkept⟩
    | invalid corruptionPossible =>
      simp only [houtcome, Option.map_eq_some_iff, Prod.mk.injEq] at hc
      obtain ⟨u, hu, rfl, -⟩ := hc
      have hkept := Kept.invalidBlockFound hu
      exact ⟨h.kept hkept, .of_kept hkept⟩
    | failed wroteUndo =>
      simp only [houtcome, Option.some.injEq, Prod.mk.injEq] at hc
      obtain ⟨rfl, -⟩ := hc
      have hkept : Kept s (if wroteUndo then s.noteUndo p else s) := by
        split
        · exact .noteUndo
        · exact .refl
      exact ⟨h.kept hkept, .of_kept hkept⟩
  · cases hc

theorem pruneBlockIndexCandidates_kept (h : s.pruneBlockIndexCandidates = some t) : Kept s t := by
  obtain ⟨tip, -, h⟩ := Option.bind_eq_some_iff.1 h
  dsimp only at h
  split at h
  · cases h
  · cases h
    exact ⟨⟨rfl, fun _ => .refl, fun _ hp => (List.mem_filter.1 hp).1⟩, rfl⟩

theorem connectBlocks_toward {outcome : BlockPtr → ConnectOutcome} {progress : Progress} {pindexOldTip : Option BlockPtr}
    {back : BlockPtr}
    {l : List BlockPtr} (h : IndexInv s) (hl : ∀ p ∈ l, p ∈ s.mapBlockIndex ∧ Up s.pprev q p)
    (hc : connectBlocks outcome pindexOldTip back l s = some (t, progress)) : IndexInv t ∧ Toward s q t := by
  induction l generalizing s with
  | nil =>
    cases hc
    exact ⟨h, .refl⟩
  | cons p l ih =>
    unfold connectBlocks at hc
    obtain ⟨⟨u, progress'⟩, hone, hrest⟩ := Option.bind_eq_some_iff.1 hc
    obtain ⟨hinv, htoward⟩ := connectTip_toward h (hl p (by simp)).1 (hl p (by simp)).2 hone
    cases progress' with
    | more =>
      obtain ⟨v, hprune, hrest⟩ := Option.bind_eq_some_iff.1 hrest
      have hkept := pruneBlockIndexCandidates_kept hprune
      have htoward' : Toward s q v := htoward.trans (.of_kept hkept)
      split at hrest
      · cases hrest
        exact ⟨hinv.kept hkept, htoward'⟩
      · have hl' : ∀ p ∈ l, p ∈ v.mapBlockIndex ∧ Up v.pprev q p := by
          intro x hx
          rw [htoward'.later.index, htoward'.later.pprev]
          exact hl x (List.mem_cons_of_mem p hx)
        obtain ⟨hinv', htoward''⟩ := ih (hinv.kept hkept) hl' hrest
        exact ⟨hinv', htoward'.trans htoward''⟩
    | better =>
      cases hrest
      exact ⟨hinv, htoward⟩
    | invalid corruptionPossible =>
      obtain ⟨v, hv, heq⟩ := Option.map_eq_some_iff.1 hrest
      cases heq
      have hkept : Kept u t := by
        split at hv
        · cases hv
          exact .refl
        · exact .invalidChainFound hv
      exact ⟨hinv.kept hkept, htoward.trans (.of_kept hkept)⟩
    | error =>
      cases hrest
      exact ⟨hinv, htoward⟩

theorem vpindexToConnect_up {nHeight nTargetHeight : Int} {l : List BlockPtr} (h : IndexInv s) (hq : q ∈ s.mapBlockIndex)
    (hv : s.vpindexToConnect q nHeight nTargetHeight = some l) : ∀ p ∈ l, p ∈ s.mapBlockIndex ∧ Up s.pprev q p := by
  obtain ⟨o, hanc, hv⟩ := Option.bind_eq_some_iff.1 hv
  obtain ⟨⟨l', r⟩, hclimb, rfl⟩ := Option.map_eq_some_iff.1 hv
  intro p hp
  cases o with
  | none =>
    rw [climb_none] at hclimb
    cases hclimb
    cases hp
  | some a =>
    have ha : Up s.pprev q a := by
      unfold getAncestor at hanc
      split at hanc
      · cases hanc
      · obtain ⟨⟨l'', r'⟩, hclimb', hr⟩ := Option.map_eq_some_iff.1 hanc
        cases hr
        exact (climb_end hclimb').2.1
    have hup := ha.trans (climb_passed hclimb hp).2
    exact ⟨h.known hq hup, hup⟩

theorem connectLoop_toward {outcome : BlockPtr → ConnectOutcome} {progress : Progress} {pindexOldTip : Option BlockPtr}
    {n : Nat} {nHeight : Int}
    (h : IndexInv s) (hq : q ∈ s.mapBlockIndex) (hc : connectLoop outcome pindexOldTip q n nHeight s = some (t, progress)) :
    IndexInv t ∧ Toward s q t := by
  induction n generalizing s nHeight with
  | zero =>
    unfold connectLoop at hc
    split at hc
    · cases hc
      exact ⟨h, .refl⟩
    · cases hc
  | succ n ih =>
    unfold connectLoop at hc
    split at hc
    · cases hc
      exact ⟨h, .refl⟩
    · obtain ⟨l, hl, hc⟩ := Option.bind_eq_some_iff.1 hc
      split at hc
      · exact ih h hq hc
      · next back hback =>
        obtain ⟨⟨u, progress'⟩, hblocks, hrest⟩ := Option.bind_eq_some_iff.1 hc
        have hup := vpindexToConnect_up h hq hl
        obtain ⟨hinv, htoward⟩ := connectBlocks_toward h (fun p hp => hup p (List.mem_reverse.1 hp)) hblocks
        dsimp only at hrest
        split at hrest
        · obtain ⟨hinv', htoward'⟩ := ih hinv (by rwa [htoward.later.index]) hrest
          exact ⟨hinv', htoward.trans htoward'⟩
        · cases hrest
          exact ⟨hinv, htoward⟩

theorem activateBestChainStep_toward {round : Round} {ok fInvalidFound : Bool} (h : IndexInv s) (hq : q ∈ s.mapBlockIndex)
    (hstep : s.activateBestChainStep round q = some (t, ok, fInvalidFound)) : IndexInv t ∧ Toward s q t := by
  obtain ⟨f, hfork, hf⟩ := findFork_eq h hq
  simp only [activateBestChainStep, hfork, Option.bind_some] at hstep
  obtain ⟨⟨u, ok'⟩, hdisconnect, hrest⟩ := Option.bind_eq_some_iff.1 hstep
  obtain ⟨hinv, htoward⟩ := disconnectTo_toward (q := q) h hf hdisconnect
  cases ok' with
  | true =>
    obtain ⟨⟨v, progress⟩, hloop, heq⟩ := Option.map_eq_some_iff.1 hrest
    cases heq
    obtain ⟨hinv', htoward'⟩ := connectLoop_toward hinv (by rwa [htoward.later.index]) hloop
    exact ⟨hinv', htoward.trans htoward'⟩
  | false =>
    cases hrest
    exact ⟨hinv, htoward⟩

/-! ## `ActivateBestChain` -/

def IsMostWork (s : IndexState) : Option BlockPtr → Prop
  | none => ∀ q ∈ s.setBlockIndexCandidates, ¬ Usable s q
  | some p =>
    p ∈ s.setBlockIndexCandidates ∧ Usable s p ∧
      ∀ q ∈ s.setBlockIndexCandidates, Usable s q → q = p ∨ s.blockIndexWorkComparator q p = true

/-- What `ActivateBestChain` remembers was the best when it was found. -/
def Aims (s : IndexState) : Option BlockPtr → Prop
  | none => True
  | some p => p ∈ s.mapBlockIndex ∧ ∃ u, IsMostWork u (some p) ∧ Toward u p s

def TipIsBest (s : IndexState) : Prop :=
  ∃ tip, s.tip = some tip ∧ ∀ q ∈ s.setBlockIndexCandidates, Usable s q → (s.blocks q).nChainWork ≤ (s.blocks tip).nChainWork

theorem Aims.tipIsBest (h : Aims s (some p)) (htip : s.tip = some p) : TipIsBest s := by
  obtain ⟨-, u, ⟨-, hp, hbest⟩, htoward⟩ := h
  refine ⟨p, htip, fun q hq hu => ?_⟩
  rw [(htoward.later.blocks q).nChainWork, (htoward.later.blocks p).nChainWork]
  rcases hbest q (htoward.later.candidates q hq) (htoward.usable hp hu) with rfl | hworse
  · exact le_rfl
  · exact le_of_comparator hworse

theorem findMostWorkChain_isMostWork (h : IndexInv s) :
    ∃ t best, s.findMostWorkChain = some (t, best) ∧ Narrowed s t ∧ IsMostWork s best ∧ IsMostWork t best := by
  obtain ⟨t, best, heq, hn, hbest, hu⟩ := findMostWorkChain_spec h
  refine ⟨t, best, heq, hn, ?_, ?_⟩
  · cases best with
    | none =>
      intro q hq
      exact hn.removed q hq (by simp [rbegin_none.1 hbest])
    | some p =>
      obtain ⟨hp, hall⟩ := rbegin_some hbest
      refine ⟨hn.kept.candidates p hp, hu p rfl, fun q hq hqu => ?_⟩
      rw [← hn.kept.comparator]
      refine hall q ?_
      by_contra hnot
      exact hn.removed q hq hnot hqu
  · cases best with
    | none =>
      intro q hq
      simp [rbegin_none.1 hbest] at hq
    | some p =>
      obtain ⟨hp, hall⟩ := rbegin_some hbest
      exact ⟨hp, (hn.usable p).2 (hu p rfl), fun q hq _ => hall q hq⟩

theorem TipIsBest.kept (h : TipIsBest s) (hk : Kept s t) : TipIsBest t := by
  obtain ⟨tip, htip, hbest⟩ := h
  refine ⟨tip, by rw [IndexState.tip, hk.active]; exact htip, fun q hq hu => ?_⟩
  rw [(hk.blocks q).nChainWork, (hk.blocks tip).nChainWork]
  refine hbest q (hk.candidates q hq) fun x hx => ?_
  rw [← hk.pprev] at hx
  rw [← hk.active]
  exact (hu x hx).imp_right hk.ok

theorem activateBestChain_tipIsBest {rounds : List Round} (pindexMostWork : Option BlockPtr) (h : IndexInv s)
    (haim : Aims s pindexMostWork)
    (ha : activateBestChain rounds pindexMostWork s = some (t, .returned true)) : TipIsBest t := by
  induction rounds generalizing s pindexMostWork with
  | nil => simp [activateBestChain] at ha
  | cons round rounds ih =>
    unfold activateBestChain at ha
    obtain ⟨⟨u, best⟩, hselect, hrest⟩ := Option.bind_eq_some_iff.1 ha
    have haim' : IndexInv u ∧ Aims u best ∧ (best = none → ∀ q ∈ u.setBlockIndexCandidates, ¬ Usable u q) := by
      cases pindexMostWork with
      | none =>
        obtain ⟨u', best', heq, hn, -, hmost⟩ := findMostWorkChain_isMostWork h
        rw [heq] at hselect
        cases hselect
        have hinv := h.kept hn.kept
        cases best with
        | none => exact ⟨hinv, trivial, fun _ => hmost⟩
        | some p => exact ⟨hinv, ⟨(hinv.candidates p hmost.1).1, u, hmost, .refl⟩, nofun⟩
      | some p =>
        cases hselect
        exact ⟨h, haim, nofun⟩
    obtain ⟨hinv, haim, hnone⟩ := haim'
    cases best with
    | none =>
      cases hrest
      obtain ⟨tip, htip⟩ := hinv.exists_tip
      exact ⟨tip, htip, fun q hq hu => absurd hu (hnone rfl q hq)⟩
    | some p =>
      dsimp only at hrest
      split at hrest
      · next htip =>
        cases hrest
        exact haim.tipIsBest htip
      · obtain ⟨⟨v, ok, fInvalidFound⟩, hstep, hrest⟩ := Option.bind_eq_some_iff.1 hrest
        obtain ⟨hmem, w, hmost, htoward⟩ := haim
        obtain ⟨hinv', htoward'⟩ := activateBestChainStep_toward hinv hmem hstep
        cases ok with
        | false => simp at hrest
        | true =>
          cases fInvalidFound with
          | true =>
            -- The tip is never null.
            obtain ⟨tip, htip⟩ := hinv'.exists_tip
            simp only [if_true, htip, reduceCtorEq, if_false] at hrest
            exact ih none hinv' trivial hrest
          | false =>
            have haim' : Aims v (some p) := ⟨by rwa [htoward'.later.index], w, hmost, htoward.trans htoward'⟩
            by_cases htip : v.tip = some p
            · simp only [if_true, htip, Bool.false_eq_true, if_false, Option.some.injEq, Prod.mk.injEq] at hrest
              rw [← hrest.1]
              exact (haim'.tipIsBest htip).kept (.pruneFiles _)
            · simp only [if_true, htip, Bool.false_eq_true, if_false] at hrest
              exact ih (some p) hinv' haim' hrest

/-- `FindMostWorkChain` ends with the best of the usable candidates and removes only others;
    and where `ActivateBestChain` returns true, no usable candidate has more work than the
    tip, whichever blocks failed to connect. -/
theorem most_work_wins (s : IndexState) (h : IndexInv s) :
    (∃ t best, s.findMostWorkChain = some (t, best) ∧ IsMostWork s best ∧
      (∀ p ∈ t.setBlockIndexCandidates, p ∈ s.setBlockIndexCandidates) ∧
        ∀ p ∈ s.setBlockIndexCandidates, p ∉ t.setBlockIndexCandidates → ¬ Usable s p) ∧
      ∀ rounds t, activateBestChain rounds none s = some (t, .returned true) → TipIsBest t := by
  obtain ⟨t, best, heq, hn, hmost, -⟩ := findMostWorkChain_isMostWork h
  refine ⟨⟨t, best, heq, hmost, hn.kept.candidates, hn.removed⟩, fun rounds t ha => ?_⟩
  exact activateBestChain_tipIsBest none h trivial ha

/-! ## A fork -/

namespace IndexSample

/-- Two blocks above the genesis block, with their data. The second one has more work. -/
def fork : IndexState where
  blocks p :=
    { pprev := if p = 0 then none else some 0, nHeight := if p = 0 then 0 else 1, nFile := 0, nChainWork := p + 1, nTx := 1,
      nChainTx := if p = 0 then 1 else 2, nStatus := ⟨blockValidTransactions, true, false, false, false⟩, nSequenceId := p + 1 }
  mapBlockIndex := [0, 1, 2]
  chainActive := [1, 0]
  setBlockIndexCandidates := [1, 2]
  mapBlocksUnlinked := []
  pindexBestInvalid := none

theorem fork_inv : IndexInv fork where
  parent := by decide +kernel
  height := by decide
  processed := by decide +kernel
  candidates := by decide
  active := by decide
  linked := by decide
  genesis := ⟨0, rfl, rfl, by decide⟩

/-- Nothing fails but the second block, if `valid` is false. -/
def round (valid : Bool) : Round where
  disconnect _ := .disconnected []
  connect p := if p = 2 ∧ valid = false then .invalid false else .connected []
  flushed := true
  files := []

def result (valid : Bool) : Option (Option BlockPtr × Returned) :=
  (activateBestChain [round valid, round valid] none fork).map fun (s, returned) => (s.tip, returned)

end IndexSample

/-- The second block becomes the tip; or the first one again, where the second is not valid. -/
theorem fork_is_resolved :
    IndexSample.result true = some (some 2, .returned true) ∧ IndexSample.result false = some (some 1, .returned true) ∧
      ∀ rounds t, activateBestChain rounds none IndexSample.fork = some (t, .returned true) → TipIsBest t :=
  ⟨by decide, by decide, (most_work_wins IndexSample.fork IndexSample.fork_inv).2⟩

end Zumy.BlockIndex
