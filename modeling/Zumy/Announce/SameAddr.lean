/-
  Zumy.Announce.SameAddr — masternodes that share an address (`CheckSameAddr`).

  The masternodes are sorted by address and scanned once, with the one before and the verified
  one of its address at hand. `std::sort` leaves the order within an address open:
  `SortedByAddr` is any order it may produce.

  Who comes behind the first verified masternode of an address is banned, and who comes right
  before it. Those further in front wait for a later call (the source: it could take many
  times to run this): `checkSameAddr_bans`.
-/
import Mathlib.Data.List.FinRange
import Mathlib.Data.List.Induction
import Zumy.Announce.Model

namespace Zumy.Announce

open Lib

/-- `operator<` -/
def CService.less (a b : CService) : Bool := a.ip < b.ip || (a.ip == b.ip && a.port < b.port)

def CMasternode.isPreEnabled (mn : CMasternode) : Bool := mn.nActiveState == .preEnabled

/-- `vSortedByAddr` after `sort`: no masternode is less than one in front of it. A pointer into
    the list is a place in it. -/
structure SortedByAddr (vMasternodes : List CMasternode) where
  order : List (Fin vMasternodes.length)
  perm : order.Perm (List.finRange vMasternodes.length)
  sorted : order.Pairwise fun i j => ¬ vMasternodes[j].addr.less vMasternodes[i].addr

structure SameAddrScan (n : Nat) where
  pprevMasternode : Option (Fin n)
  pverifiedMasternode : Option (Fin n)
  vBan : List (Fin n)

/-- The body of the loop over `vSortedByAddr`. -/
def sameAddrStep (vMasternodes : List CMasternode) (s : SameAddrScan vMasternodes.length) (pmn : Fin vMasternodes.length) :
    SameAddrScan vMasternodes.length :=
  let mn := vMasternodes[pmn]
  -- only (pre)enabled masternodes
  if !mn.isEnabled && !mn.isPreEnabled then s
  else match s.pprevMasternode with
    | none => { s with pprevMasternode := some pmn, pverifiedMasternode := if mn.isPoSeVerified then some pmn else none }
    | some pprev =>
      let s :=
        if mn.addr = vMasternodes[pprev].addr then
          if s.pverifiedMasternode.isSome then { s with vBan := s.vBan ++ [pmn] }
          else if mn.isPoSeVerified then { s with vBan := s.vBan ++ [pprev], pverifiedMasternode := some pmn }
          else s
        else { s with pverifiedMasternode := if mn.isPoSeVerified then some pmn else none }
      { s with pprevMasternode := some pmn }

def sameAddrStart (n : Nat) : SameAddrScan n := ⟨none, none, []⟩

namespace SortedByAddr

variable {l : List CMasternode}

def vBan (v : SortedByAddr l) : List (Fin l.length) := (v.order.foldl (sameAddrStep l) (sameAddrStart l.length)).vBan

def eligible (v : SortedByAddr l) : List (Fin l.length) :=
  v.order.filter fun i => l[i].isEnabled || l[i].isPreEnabled

def FirstVerified (v : SortedByAddr l) (s : Fin l.length) : Prop :=
  s ∈ v.eligible ∧ l[s].isPoSeVerified = true ∧
    ∀ j, [j, s].Sublist v.eligible → l[j].addr = l[s].addr → l[j].isPoSeVerified = false

def Banned (v : SortedByAddr l) (i : Fin l.length) : Prop :=
  ∃ s, v.FirstVerified s ∧ l[s].addr = l[i].addr ∧ ([s, i].Sublist v.eligible ∨ [i, s] <:+: v.eligible)

end SortedByAddr

def checkSameAddr (env : Env) (m : CMasternodeMan) (v : SortedByAddr m.vMasternodes) : CMasternodeMan :=
  if !env.isSynced || m.vMasternodes.isEmpty then m
  else
    let ban (l : List CMasternode) (pmn : Fin m.vMasternodes.length) := l.modify pmn CMasternode.increasePoSeBanScore
    { m with vMasternodes := v.vBan.foldl ban m.vMasternodes }

/-! ## Pairs in a list -/

section Pairs

variable {ι α : Type*} {key : ι → α} {mark : ι → Bool} {a b i j x : ι} {l : List ι}

theorem pair_sublist_concat : [a, b].Sublist (l ++ [x]) ↔ [a, b].Sublist l ∨ (a ∈ l ∧ b = x) := by
  have hback (l : List ι) : [a, b].Sublist l ↔ [b, a].Sublist l.reverse := by
    rw [← List.reverse_sublist]
    rfl
  rw [hback, hback l, List.reverse_append, List.reverse_singleton, List.singleton_append, List.cons_sublist_cons']
  simp [and_comm]

theorem pair_infix_concat : [a, b] <:+: l ++ [x] ↔ [a, b] <:+: l ∨ (l.getLast? = some a ∧ b = x) := by
  rw [List.infix_concat_iff, or_comm]
  apply or_congr_right
  rw [List.getLast?_eq_some_iff]
  constructor
  · intro h
    obtain ⟨t, ht⟩ := h
    have hconcat : (t ++ [a]) ++ [b] = l ++ [x] := by rw [← ht, List.append_assoc]; rfl
    obtain ⟨hl, hb⟩ := List.append_inj' hconcat rfl
    exact ⟨⟨t, hl.symm⟩, by simpa using hb⟩
  · intro h
    obtain ⟨⟨t, rfl⟩, rfl⟩ := h
    exact ⟨t, by simp⟩

theorem pair_sublist_append_cons {l₁ l₂ : List ι} (h : (l₁ ++ b :: l₂).Nodup) : [a, b].Sublist (l₁ ++ b :: l₂) ↔ a ∈ l₁ := by
  constructor
  · intro hpair
    induction l₁ with
    | nil =>
      have hb : b ∈ l₂ := by
        rcases List.cons_sublist_cons'.1 hpair with hpair | ⟨-, hpair⟩
        · exact hpair.subset (by simp)
        · exact hpair.subset (by simp)
      exact absurd hb (List.nodup_cons.1 h).1
    | cons c l₁ ih =>
      rcases List.cons_sublist_cons'.1 hpair with hpair | ⟨rfl, -⟩
      · exact List.mem_cons_of_mem c (ih (List.nodup_cons.1 h).2 hpair)
      · exact List.mem_cons_self
  · intro ha
    exact (List.singleton_sublist.2 ha).append (List.singleton_sublist.2 List.mem_cons_self)

theorem mem_of_pair_sublist (h : [a, b].Sublist l) : a ∈ l ∧ b ∈ l :=
  ⟨h.subset (by simp), h.subset (by simp)⟩

theorem pair_sublist_or (ha : a ∈ l) (hb : b ∈ l) (hne : a ≠ b) : [a, b].Sublist l ∨ [b, a].Sublist l := by
  obtain ⟨l₁, l₂, rfl⟩ := List.append_of_mem hb
  rw [List.mem_append, List.mem_cons] at ha
  rcases ha with ha | heq | ha
  · exact .inl ((List.singleton_sublist.2 ha).append (List.singleton_sublist.2 List.mem_cons_self))
  · exact absurd heq hne
  · exact .inr (((List.singleton_sublist.2 ha).cons_cons b).trans (List.sublist_append_right l₁ _))

def Behind (key : ι → α) (mark : ι → Bool) (l : List ι) (i : ι) : Prop := ∃ j, [j, i].Sublist l ∧ key j = key i ∧ mark j = true

/-- Behind a marked element with its key, or not marked itself and right in front of one. -/
def Caught (key : ι → α) (mark : ι → Bool) (l : List ι) (i : ι) : Prop :=
  Behind key mark l i ∨ (mark i = false ∧ ∃ j, [i, j] <:+: l ∧ key j = key i ∧ mark j = true)

theorem mem_of_caught (h : Caught key mark l i) : i ∈ l := by
  rcases h with ⟨j, hpair, -⟩ | ⟨-, j, hpair, -⟩
  · exact (mem_of_pair_sublist hpair).2
  · exact (mem_of_pair_sublist hpair.sublist).1

theorem exists_mark_of_caught (hnodup : l.Nodup) (h : Caught key mark l i) : ∃ j ∈ l, j ≠ i ∧ key j = key i ∧ mark j = true := by
  rcases h with ⟨j, hpair, hkey, hmark⟩ | ⟨hno, j, hpair, hkey, hmark⟩
  · have hpairs := hnodup.sublist hpair
    refine ⟨j, (mem_of_pair_sublist hpair).1, fun heq => ?_, hkey, hmark⟩
    subst heq
    simp at hpairs
  · refine ⟨j, (mem_of_pair_sublist hpair.sublist).2, fun heq => ?_, hkey, hmark⟩
    subst heq
    rw [hno] at hmark
    cases hmark

theorem behind_concat : Behind key mark (l ++ [x]) i ↔
    Behind key mark l i ∨ (i = x ∧ ∃ j ∈ l, key j = key x ∧ mark j = true) := by
  unfold Behind
  simp only [pair_sublist_concat]
  constructor
  · intro h
    obtain ⟨j, hpair | ⟨hj, rfl⟩, hkey, hmark⟩ := h
    · exact .inl ⟨j, hpair, hkey, hmark⟩
    · exact .inr ⟨rfl, j, hj, hkey, hmark⟩
  · intro h
    rcases h with ⟨j, hpair, hkey, hmark⟩ | ⟨rfl, j, hj, hkey, hmark⟩
    · exact ⟨j, .inl hpair, hkey, hmark⟩
    · exact ⟨j, .inr ⟨hj, rfl⟩, hkey, hmark⟩

theorem caught_concat : Caught key mark (l ++ [x]) i ↔
    Caught key mark l i ∨ (i = x ∧ ∃ j ∈ l, key j = key x ∧ mark j = true) ∨
      (l.getLast? = some i ∧ mark i = false ∧ key x = key i ∧ mark x = true) := by
  unfold Caught
  simp only [behind_concat, pair_infix_concat]
  constructor
  · intro h
    rcases h with (hbehind | hx) | ⟨hno, j, hpair | ⟨hlast, rfl⟩, hkey, hmark⟩
    · exact .inl (.inl hbehind)
    · exact .inr (.inl hx)
    · exact .inl (.inr ⟨hno, j, hpair, hkey, hmark⟩)
    · exact .inr (.inr ⟨hlast, hno, hkey, hmark⟩)
  · intro h
    rcases h with (hbehind | ⟨hno, j, hpair, hkey, hmark⟩) | hx | ⟨hlast, hno, hkey, hmark⟩
    · exact .inl (.inl hbehind)
    · exact .inr ⟨hno, j, .inl hpair, hkey, hmark⟩
    · exact .inl (.inr hx)
    · exact .inr ⟨hno, x, .inr ⟨hlast, rfl⟩, hkey, hmark⟩

end Pairs

/-! ## The scan -/

variable {l : List CMasternode} {es : List (Fin l.length)} {s : SameAddrScan l.length} {x i p : Fin l.length}

def addrOf (l : List CMasternode) (i : Fin l.length) : CService := l[i].addr
def verifiedOf (l : List CMasternode) (i : Fin l.length) : Bool := l[i].isPoSeVerified

/-- What the scan knows behind the masternodes `es`. -/
structure Scanned (l : List CMasternode) (es : List (Fin l.length)) (s : SameAddrScan l.length) : Prop where
  prev : s.pprevMasternode = es.getLast?
  verified : s.pverifiedMasternode.isSome ↔
    ∃ p, es.getLast? = some p ∧ ∃ j ∈ es, addrOf l j = addrOf l p ∧ verifiedOf l j = true
  nodup : s.vBan.Nodup
  bans : ∀ i, i ∈ s.vBan ↔ Caught (addrOf l) (verifiedOf l) es i

theorem scanned_start : Scanned l [] (sameAddrStart l.length) where
  prev := rfl
  verified := by simp [sameAddrStart]
  nodup := List.nodup_nil
  bans i := by
    constructor
    · intro h
      cases h
    · intro h
      cases mem_of_caught h

/-- A verified masternode among `es` has the address of `x`. -/
def HasVerified (l : List CMasternode) (es : List (Fin l.length)) (x : Fin l.length) : Prop :=
  ∃ j ∈ es, addrOf l j = addrOf l x ∧ verifiedOf l j = true

theorem Scanned.concat {s' : SameAddrScan l.length} (h : Scanned l es s) (hprev : s'.pprevMasternode = some x)
    (hverified : s'.pverifiedMasternode.isSome ↔ HasVerified l es x ∨ verifiedOf l x = true) (hnodup : s'.vBan.Nodup)
    (hbans : ∀ i, i ∈ s'.vBan ↔ i ∈ s.vBan ∨ (i = x ∧ HasVerified l es x) ∨
      (es.getLast? = some i ∧ verifiedOf l i = false ∧ addrOf l x = addrOf l i ∧ verifiedOf l x = true)) :
    Scanned l (es ++ [x]) s' where
  prev := by rw [hprev, List.getLast?_concat]
  verified := by
    rw [hverified, List.getLast?_concat]
    unfold HasVerified
    constructor
    · intro hv
      refine ⟨x, rfl, ?_⟩
      rcases hv with ⟨j, hj, haddr, hjv⟩ | hxv
      · exact ⟨j, List.mem_append_left _ hj, haddr, hjv⟩
      · exact ⟨x, by simp, rfl, hxv⟩
    · intro hv
      obtain ⟨p, hp, j, hj, haddr, hjv⟩ := hv
      cases hp
      rcases List.mem_append.1 hj with hj | hj
      · exact .inl ⟨j, hj, haddr, hjv⟩
      · rw [List.mem_singleton] at hj
        subst hj
        exact .inr hjv
  nodup := hnodup
  bans i := by rw [hbans, caught_concat, h.bans]; rfl

theorem behind_last (hlast : es.getLast? = some p) (hno : verifiedOf l p = false) (hhas : HasVerified l es p) :
    Behind (addrOf l) (verifiedOf l) es p := by
  obtain ⟨j, hj, haddr, hjv⟩ := hhas
  obtain ⟨front, rfl⟩ := List.getLast?_eq_some_iff.1 hlast
  refine ⟨j, pair_sublist_concat.2 (.inr ⟨?_, rfl⟩), haddr, hjv⟩
  rcases List.mem_append.1 hj with hj | hj
  · exact hj
  · rw [List.mem_singleton] at hj
    subst hj
    rw [hno] at hjv
    cases hjv

/-- A masternode that the scan looks at, of the last address or of another one. -/
theorem Scanned.step (h : Scanned l es s) (hes : es.Nodup) (hx : x ∉ es)
    (heligible : (l[x].isEnabled || l[x].isPreEnabled) = true)
    (hgroup : ∀ j ∈ es, addrOf l j = addrOf l x → ∀ p, es.getLast? = some p → addrOf l p = addrOf l x) :
    Scanned l (es ++ [x]) (sameAddrStep l s x) := by
  have hfresh : x ∉ s.vBan := fun hban => hx (mem_of_caught ((h.bans x).1 hban))
  have hpass : (!l[x].isEnabled && !l[x].isPreEnabled) = false := by
    rw [← Bool.not_or, heligible]
    rfl
  have hstart : (if l[x].isPoSeVerified then some x else none).isSome ↔ verifiedOf l x = true := by
    unfold verifiedOf
    cases l[x].isPoSeVerified <;> simp
  unfold sameAddrStep
  dsimp only
  rw [hpass, if_neg Bool.false_ne_true, h.prev]
  cases hlast : es.getLast? with
  | none =>
    have hnone : ¬ HasVerified l es x := by
      rw [List.getLast?_eq_none_iff.1 hlast]
      simp [HasVerified]
    dsimp only
    refine h.concat rfl ?_ h.nodup fun i => ?_
    · rw [hstart]
      simp [hnone]
    · simp [hnone, hlast]
  | some p =>
    have hverified : s.pverifiedMasternode.isSome ↔ HasVerified l es p := by
      rw [h.verified, hlast]
      simp [HasVerified]
    dsimp only
    by_cases hsame : l[x].addr = l[p].addr
    · have hhas : HasVerified l es p ↔ HasVerified l es x := by
        have haddr : addrOf l x = addrOf l p := hsame
        unfold HasVerified
        rw [haddr]
      rw [if_pos hsame]
      by_cases hv : s.pverifiedMasternode.isSome = true
      · -- a verified masternode is in front of `x`, and of the last one if that is not verified
        have hx' : HasVerified l es x := hhas.1 (hverified.1 hv)
        rw [if_pos hv]
        refine h.concat rfl (by simp [hv, hx']) ?_ fun i => ?_
        · exact List.nodup_append.2 ⟨h.nodup, List.nodup_singleton x, by simpa using fun a ha (heq : a = x) => hfresh (heq ▸ ha)⟩
        · rw [List.mem_append, List.mem_singleton]
          constructor
          · intro hi
            exact hi.imp_right fun heq => .inl ⟨heq, hx'⟩
          · intro hi
            rcases hi with hi | ⟨heq, -⟩ | ⟨hlasti, hno, -⟩
            · exact .inl hi
            · exact .inr heq
            · rw [hlast, Option.some.injEq] at hlasti
              subst hlasti
              exact .inl ((h.bans p).2 (.inl (behind_last hlast hno (hverified.1 hv))))
      · have hnone : ¬ HasVerified l es x := fun hx' => hv (hverified.2 (hhas.2 hx'))
        rw [if_neg hv]
        by_cases hxv : verifiedOf l x = true
        · have hmark : l[x].isPoSeVerified = true := hxv
          rw [if_pos hmark]
          refine h.concat rfl (by simp [hxv]) ?_ fun i => ?_
          · refine List.nodup_append.2 ⟨h.nodup, List.nodup_singleton p, fun a ha b hb heq => ?_⟩
            rw [List.mem_singleton] at hb
            subst heq hb
            obtain ⟨j, hj, -, haddr, hjv⟩ := exists_mark_of_caught hes ((h.bans a).1 ha)
            exact hnone (hhas.1 ⟨j, hj, haddr, hjv⟩)
          · have hpv : verifiedOf l p = false := by
              rw [Bool.eq_false_iff]
              exact fun hpv => hnone (hhas.1 ⟨p, List.mem_of_getLast? hlast, rfl, hpv⟩)
            rw [List.mem_append, List.mem_singleton, hlast, Option.some.injEq]
            apply or_congr_right
            constructor
            · intro hi
              subst hi
              exact .inr ⟨rfl, hpv, hsame, hxv⟩
            · intro hi
              rcases hi with ⟨-, hx'⟩ | ⟨hi, -⟩
              · exact absurd hx' hnone
              · exact hi.symm
        · have hmark : ¬ l[x].isPoSeVerified = true := hxv
          rw [if_neg hmark]
          refine h.concat rfl ?_ h.nodup fun i => ?_
          · simp [hxv, hnone, hv]
          · simp [hxv, hnone]
    · have hnone : ¬ HasVerified l es x := by
        intro hx'
        obtain ⟨j, hj, haddr, -⟩ := hx'
        exact hsame (hgroup j hj haddr p hlast).symm
      rw [if_neg hsame]
      refine h.concat rfl ?_ h.nodup fun i => ?_
      · dsimp only
        rw [hstart]
        simp [hnone]
      · have hother : ¬ (es.getLast? = some i ∧ verifiedOf l i = false ∧ addrOf l x = addrOf l i ∧ verifiedOf l x = true) := by
          intro hi
          rw [hlast, Option.some.injEq] at hi
          obtain ⟨rfl, -, haddr, -⟩ := hi
          exact hsame haddr
        simp [hnone, hother]

theorem eq_of_not_less {a b : CService} (hab : ¬ a.less b) (hba : ¬ b.less a) : a = b := by
  unfold CService.less at hab hba
  simp only [Bool.or_eq_true, decide_eq_true_eq, Bool.and_eq_true, beq_iff_eq, not_or, not_and] at hab hba
  have hip : a.ip = b.ip := List.le_antisymm hba.1 hab.1
  have hport : a.port = b.port := UInt16.le_antisymm (UInt16.not_lt.1 (hba.2 hip.symm)) (UInt16.not_lt.1 (hab.2 hip))
  cases a
  cases b
  simp_all

theorem last_of_sorted {es : List (Fin l.length)} (h : (es ++ [x]).Pairwise fun i j => ¬ l[j].addr.less l[i].addr) :
    ∀ j ∈ es, addrOf l j = addrOf l x → ∀ p, es.getLast? = some p → addrOf l p = addrOf l x := by
  intro j hj haddr p hlast
  obtain ⟨front, rfl⟩ := List.getLast?_eq_some_iff.1 hlast
  obtain ⟨hes, -, hx⟩ := List.pairwise_append.1 h
  rcases List.mem_append.1 hj with hj' | hj'
  · have hpj := (List.pairwise_append.1 hes).2.2 j hj' p (List.mem_singleton_self p)
    have hxp := hx p (by simp) x (List.mem_singleton_self x)
    have haddr' : l[j].addr = l[x].addr := haddr
    rw [haddr'] at hpj
    exact eq_of_not_less hpj hxp
  · rw [List.mem_singleton] at hj'
    rw [← hj', haddr]

theorem scanned_foldl (hnodup : es.Nodup) (hsorted : es.Pairwise fun i j => ¬ l[j].addr.less l[i].addr)
    (heligible : ∀ i ∈ es, (l[i].isEnabled || l[i].isPreEnabled) = true) :
    Scanned l es (es.foldl (sameAddrStep l) (sameAddrStart l.length)) := by
  induction es using List.reverseRecOn with
  | nil => exact scanned_start
  | append_singleton es x ih =>
    rw [List.foldl_append, List.foldl_cons, List.foldl_nil]
    have hes := hnodup.sublist (List.sublist_append_left es [x])
    have hscanned := ih hes (hsorted.sublist (List.sublist_append_left es [x])) fun i hi => heligible i (by simp [hi])
    have hx : x ∉ es := fun hx => (List.nodup_append.1 hnodup).2.2 x hx x (by simp) rfl
    exact hscanned.step hes hx (heligible x (by simp)) (last_of_sorted hsorted)

theorem sameAddrStep_of_not_eligible (h : (l[x].isEnabled || l[x].isPreEnabled) = false) : sameAddrStep l s x = s := by
  have hskip : (!l[x].isEnabled && !l[x].isPreEnabled) = true := by
    rw [← Bool.not_or, h]
    rfl
  unfold sameAddrStep
  dsimp only
  rw [if_pos hskip]

namespace SortedByAddr

variable {v : SortedByAddr l}

theorem nodup_eligible : v.eligible.Nodup := (v.perm.nodup_iff.2 (List.nodup_finRange _)).filter _

theorem mem_eligible : i ∈ v.eligible ↔ (l[i].isEnabled || l[i].isPreEnabled) = true := by
  unfold eligible
  rw [List.mem_filter, v.perm.mem_iff]
  simp

theorem scanned : Scanned l v.eligible (v.order.foldl (sameAddrStep l) (sameAddrStart l.length)) := by
  have hfold : v.order.foldl (sameAddrStep l) (sameAddrStart l.length) =
      v.eligible.foldl (sameAddrStep l) (sameAddrStart l.length) := by
    unfold eligible
    rw [List.foldl_filter]
    apply congrArg (fun step => v.order.foldl step (sameAddrStart l.length))
    funext s x
    split
    · rfl
    · next h => exact sameAddrStep_of_not_eligible (Bool.eq_false_iff.2 h)
  rw [hfold]
  exact scanned_foldl nodup_eligible (v.sorted.filter _) fun i hi => mem_eligible.1 hi

/-- In front of a masternode with a verified one of its address in front there is a first one. -/
theorem exists_firstVerified (h : Behind (addrOf l) (verifiedOf l) v.eligible i) :
    ∃ s, v.FirstVerified s ∧ addrOf l s = addrOf l i ∧ [s, i].Sublist v.eligible := by
  have hnodup := v.nodup_eligible
  unfold FirstVerified
  generalize v.eligible = es at h hnodup ⊢
  obtain ⟨j, hpair, haddr, hmark⟩ := h
  obtain ⟨front, back, rfl⟩ := List.append_of_mem (mem_of_pair_sublist hpair).2
  have hj : j ∈ front := (pair_sublist_append_cons hnodup).1 hpair
  obtain ⟨s, hs⟩ : ∃ s, front.find? (fun k => decide (addrOf l k = addrOf l i) && verifiedOf l k) = some s := by
    rw [← Option.isSome_iff_exists, List.find?_isSome]
    exact ⟨j, hj, by simp [haddr, hmark]⟩
  obtain ⟨hfound, before, behind, rfl, hbefore⟩ := List.find?_eq_some_iff_append.1 hs
  simp only [Bool.and_eq_true, decide_eq_true_eq] at hfound
  refine ⟨s, ⟨by simp, hfound.2, fun k hk hks => ?_⟩, hfound.1, (pair_sublist_append_cons hnodup).2 (by simp)⟩
  rw [List.append_assoc, List.cons_append] at hk hnodup
  have hmem := hbefore k ((pair_sublist_append_cons hnodup).1 hk)
  have hki : addrOf l k = addrOf l i := hks.trans hfound.1
  have hmark : verifiedOf l k = false := by simpa [hki] using hmem
  exact hmark

/-- What is in front of a masternode is in front of the one right before it, or is that one. -/
theorem caught_iff_banned : Caught (addrOf l) (verifiedOf l) v.eligible i ↔ v.Banned i := by
  constructor
  · intro h
    by_cases hbehind : Behind (addrOf l) (verifiedOf l) v.eligible i
    · obtain ⟨s, hfirst, haddr, hpair⟩ := exists_firstVerified hbehind
      exact ⟨s, hfirst, haddr, .inl hpair⟩
    · obtain ⟨hno, s, hpair, haddr, hmark⟩ := h.resolve_left hbehind
      refine ⟨s, ⟨(mem_of_pair_sublist hpair.sublist).2, hmark, fun j hj hjs => ?_⟩, haddr, .inr hpair⟩
      rw [← Bool.not_eq_true]
      intro hjv
      apply hbehind
      refine ⟨j, ?_, hjs.trans haddr, hjv⟩
      have hnodup := v.nodup_eligible
      generalize v.eligible = es at hj hpair hnodup ⊢
      obtain ⟨front, back, rfl⟩ := hpair
      have hne : j ≠ i := by
        intro heq
        subst heq
        exact absurd hjv (Bool.eq_false_iff.1 hno)
      have hassoc : front ++ [i, s] ++ back = (front ++ [i]) ++ s :: back := by simp
      rw [hassoc] at hj hnodup
      have hmem := (pair_sublist_append_cons hnodup).1 hj
      rw [List.mem_append, List.mem_singleton] at hmem
      have hfront := hmem.resolve_right hne
      rw [List.append_assoc]
      exact (List.singleton_sublist.2 hfront).append (List.singleton_sublist.2 List.mem_cons_self)
  · intro h
    obtain ⟨s, hfirst, haddr, hpair | hpair⟩ := h
    · exact .inl ⟨s, hpair, haddr, hfirst.2.1⟩
    · exact .inr ⟨hfirst.2.2 i hpair.sublist haddr.symm, s, hpair, haddr, hfirst.2.1⟩

theorem mem_vBan : i ∈ v.vBan ↔ v.Banned i := (v.scanned.bans i).trans caught_iff_banned

theorem nodup_vBan : v.vBan.Nodup := v.scanned.nodup

theorem FirstVerified.unique {s s' : Fin l.length} (h : v.FirstVerified s) (h' : v.FirstVerified s')
    (haddr : l[s].addr = l[s'].addr) :
    s = s' := by
  by_contra hne
  rcases pair_sublist_or h.1 h'.1 hne with hpair | hpair
  · have hno := h'.2.2 s hpair haddr
    rw [h.2.1] at hno
    cases hno
  · have hno := h.2.2 s' hpair haddr.symm
    rw [h'.2.1] at hno
    cases hno

theorem FirstVerified.banned_iff {s : Fin l.length} (h : v.FirstVerified s) (haddr : l[i].addr = l[s].addr) :
    v.Banned i ↔ [s, i].Sublist v.eligible ∨ [i, s] <:+: v.eligible := by
  constructor
  · intro hbanned
    obtain ⟨s', hs', haddr', hplace⟩ := hbanned
    obtain rfl := h.unique hs' (haddr.symm.trans haddr'.symm)
    exact hplace
  · intro hplace
    exact ⟨s, h, haddr.symm, hplace⟩

theorem FirstVerified.not_banned {s : Fin l.length} (h : v.FirstVerified s) : ¬ v.Banned s := by
  intro hbanned
  have hpair : [s, s].Sublist v.eligible := ((h.banned_iff rfl).1 hbanned).elim id List.IsInfix.sublist
  have hnodup := v.nodup_eligible.sublist hpair
  simp at hnodup

end SortedByAddr

/-! ## The scores -/

theorem foldl_modify_getElem? {α : Type*} {f : α → α} {n : Nat} {is : List (Fin n)} (hnodup : is.Nodup) (l : List α) (k : Fin n) :
    (is.foldl (fun l i => l.modify i f) l)[(k : Nat)]? = if k ∈ is then l[(k : Nat)]?.map f else l[(k : Nat)]? := by
  induction is generalizing l with
  | nil => simp
  | cons i is ih =>
    obtain ⟨hi, his⟩ := List.nodup_cons.1 hnodup
    rw [List.foldl_cons, ih his, List.getElem?_modify]
    by_cases hki : k = i
    · subst hki
      simp [hi]
    · have hval : ¬ (i : Nat) = k := fun h => hki (Fin.ext h.symm)
      simp [hki, hval]

theorem foldl_modify_length {α ι : Type*} {f : α → α} {place : ι → Nat} (is : List ι) (l : List α) :
    (is.foldl (fun l i => l.modify (place i) f) l).length = l.length := by
  induction is generalizing l with
  | nil => rfl
  | cons i is ih => rw [List.foldl_cons, ih, List.length_modify]

theorem checkSameAddr_synced {env : Env} {m : CMasternodeMan} (v : SortedByAddr m.vMasternodes) (hsynced : env.isSynced = true) :
    ∃ l, checkSameAddr env m v = { m with vMasternodes := l } ∧ l.length = m.vMasternodes.length ∧
      ∀ i : Fin m.vMasternodes.length,
        (v.Banned i → l[(i : Nat)]? = some m.vMasternodes[i].increasePoSeBanScore) ∧
        (¬ v.Banned i → l[(i : Nat)]? = some m.vMasternodes[i]) := by
  unfold checkSameAddr
  by_cases hempty : m.vMasternodes = []
  · have hguard : (!env.isSynced || m.vMasternodes.isEmpty) = true := by simp [hempty]
    refine ⟨m.vMasternodes, by rw [if_pos hguard], rfl, fun i => ?_⟩
    have hlt := i.isLt
    simp [hempty] at hlt
  · have hguard : ¬ (!env.isSynced || m.vMasternodes.isEmpty) = true := by simp [hsynced, hempty]
    refine ⟨_, by rw [if_neg hguard], foldl_modify_length _ _, fun i => ?_⟩
    rw [foldl_modify_getElem? v.nodup_vBan, ← v.mem_vBan]
    constructor
    · intro hbanned
      simp [hbanned]
    · intro hbanned
      simp [hbanned]

/-- The scores of a synced node's list: who is banned, and by which masternode at its address. -/
theorem checkSameAddr_bans (env : Env) (m : CMasternodeMan) (v : SortedByAddr m.vMasternodes) :
    (env.isSynced = false → checkSameAddr env m v = m) ∧
    (env.isSynced = true → ∃ l, checkSameAddr env m v = { m with vMasternodes := l } ∧ l.length = m.vMasternodes.length ∧
      ∀ i : Fin m.vMasternodes.length,
        (v.Banned i → l[(i : Nat)]? = some m.vMasternodes[i].increasePoSeBanScore) ∧
        (¬ v.Banned i → l[(i : Nat)]? = some m.vMasternodes[i])) ∧
    v.vBan.Nodup ∧ (∀ i, i ∈ v.vBan ↔ v.Banned i) ∧
    (∀ i, v.Banned i → i ∈ v.eligible ∧ ∃ j ∈ v.eligible, j ≠ i ∧ m.vMasternodes[j].addr = m.vMasternodes[i].addr ∧
      m.vMasternodes[j].isPoSeVerified = true) ∧
    ∀ s, v.FirstVerified s → ¬ v.Banned s ∧ ∀ i, m.vMasternodes[i].addr = m.vMasternodes[s].addr →
      (v.Banned i ↔ [s, i].Sublist v.eligible ∨ [i, s] <:+: v.eligible) := by
  refine ⟨fun hunsynced => ?_, checkSameAddr_synced v, v.nodup_vBan, fun i => v.mem_vBan, fun i hbanned => ?_, fun s hs => ?_⟩
  · simp [checkSameAddr, hunsynced]
  · have hcaught := SortedByAddr.caught_iff_banned.2 hbanned
    exact ⟨mem_of_caught hcaught, exists_mark_of_caught v.nodup_eligible hcaught⟩
  · exact ⟨hs.not_banned, fun i haddr => hs.banned_iff haddr⟩

/-! ## A verified masternode behind two others -/

/-- In each group of addresses with a verified masternode one of them stays and all others are
    banned. -/
def SortedByAddr.OthersBanned (v : SortedByAddr l) : Prop :=
  ∀ j ∈ v.eligible, l[j].isPoSeVerified = true →
    ∃ s ∈ v.eligible, l[s].isPoSeVerified = true ∧ l[s].addr = l[j].addr ∧ s ∉ v.vBan ∧
      ∀ i ∈ v.eligible, l[i].addr = l[s].addr → i ≠ s → v.vBan.count i = 1

instance (v : SortedByAddr l) : Decidable v.OthersBanned := inferInstanceAs (Decidable (∀ j ∈ v.eligible, _))

def neighbour (k : Nat) (nPoSeBanScore : Int) : CMasternode :=
  ⟨inputOf k, default, [], [], nullPing, [], 0, 0, .enabled, 70000, nPoSeBanScore, 0⟩

def verifiedLast : SortedByAddr [neighbour 1 0, neighbour 2 0, neighbour 3 (-5)] where
  order := [0, 1, 2]
  perm := by decide
  sorted := by decide

theorem verifiedLast_spares_one : ¬ verifiedLast.OthersBanned := by decide

end Zumy.Announce
