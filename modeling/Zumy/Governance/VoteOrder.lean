/-
  Zumy.Governance.VoteOrder — the order of votes and the cache of orphan votes.

  `operator<` of a vote is meant as a lexicographic chain. Its first comparison must
  hold to go on, and then the next statement asks for equality of what was just found
  less: no vote is less than another (`less_eq_false`). All votes are one value to the
  index of the orphan cache, which keeps one vote a parent and refuses every other.

  - `votes_ordered_iff`: over a set of votes the order is a strict weak one with the
    classes of `operator==`, and the cache refuses only votes it holds an equal of,
    exactly when the votes are all equal.
  - `second_orphan_vote_refused`: two masternodes' votes, and the second is refused.
-/
import Zumy.Governance.Vote

namespace Zumy.Governance

open Lib Container

theorem CGovernanceVote.less_eq_false (vote1 vote2 : CGovernanceVote) : vote1.less vote2 = false := by
  cases hvin : vote1.vinMasternode.less vote2.vinMasternode with
  | false => simp [less, hvin]
  | true =>
    have hne : (vote1.vinMasternode == vote2.vinMasternode) = false := by
      rw [beq_eq_false_iff_ne]
      intro heq
      rw [CTxIn.less, heq, Std.ReflOrd.compare_self] at hvin
      cases hvin
    simp [less, hvin, hne]

theorem VoteTimePair.cmpOf_eq (p1 p2 : VoteTimePair) : cmpOf VoteTimePair.less p1 p2 = .eq :=
  cmpOf_eq_iff.2 ⟨CGovernanceVote.less_eq_false .., CGovernanceVote.less_eq_false ..⟩

theorem VoteTimePair.strictWeak : StrictWeakOn VoteTimePair.less Set.univ where
  irrefl _ _ := CGovernanceVote.less_eq_false ..
  trans _ _ _ _ _ _ h := by rw [VoteTimePair.less, CGovernanceVote.less_eq_false] at h; cases h
  incomparable _ _ _ _ _ _ _ _ := VoteTimePair.cmpOf_eq ..

instance : Std.TransCmp (cmpOf VoteTimePair.less) := transCmp_cmpOf VoteTimePair.strictWeak

/-! ## The claim's two parts, over a set of votes -/

structure Ordered (S : Set CGovernanceVote) : Prop where
  strictWeak : StrictWeakOn CGovernanceVote.less S
  classes : ∀ a ∈ S, ∀ b ∈ S, cmpOf CGovernanceVote.less a b = .eq ↔ a.equal b = true

inductive CacheOp where
  | insert (v : CGovernanceVote) (expires : Int)
  | erase (key : Uint256) (p : VoteTimePair)

def applyOp (c : OrphanVotes) : CacheOp → OrphanVotes
  | .insert v expires => (c.insert v.nParentHash (v, expires)).2
  | .erase key p => c.erase key p

def Holds (c : OrphanVotes) (parent : Uint256) (v : CGovernanceVote) : Prop :=
  ∃ n ∈ c.listItems, n.item.key = parent ∧ n.item.value.1 = v

/-- After any use of a cache of any bound but 1 that inserts for the parent only votes of
    the set, a vote of the set is refused only when an equal one is held. -/
def OrphansKept (S : Set CGovernanceVote) (parent : Uint256) : Prop :=
  ∀ (nMaxSize : Nat) (ops : List CacheOp) (v : CGovernanceVote) (expires : Int), nMaxSize ≠ 1 →
    (∀ w t, .insert w t ∈ ops → w.nParentHash = parent → w ∈ S) → v ∈ S → v.nParentHash = parent →
    ((ops.foldl applyOp (.empty nMaxSize)).insert parent (v, expires)).1 = false →
    ∃ w, Holds ((ops.foldl applyOp (.empty nMaxSize)).insert parent (v, expires)).2 parent w ∧ w.equal v = true

def AllEqual (S : Set CGovernanceVote) : Prop := ∀ a ∈ S, ∀ b ∈ S, a.equal b = true

theorem ordered_iff (S : Set CGovernanceVote) : Ordered S ↔ AllEqual S := by
  have heq (a b : CGovernanceVote) : cmpOf CGovernanceVote.less a b = .eq :=
    cmpOf_eq_iff.2 ⟨CGovernanceVote.less_eq_false .., CGovernanceVote.less_eq_false ..⟩
  constructor
  · intro h a ha b hb
    exact (h.classes a ha b hb).1 (heq a b)
  · intro h
    refine ⟨⟨fun a _ => CGovernanceVote.less_eq_false a a, fun a _ b _ c _ hab _ => ?_, fun a _ b _ c _ _ _ => heq a c⟩,
      fun a ha b hb => ⟨fun _ => h a ha b hb, fun _ => heq a b⟩⟩
    rw [CGovernanceVote.less_eq_false] at hab
    cases hab

/-! ## The cache -/

theorem foldl_applyOp_valid (ops : List CacheOp) {c : OrphanVotes} (hc : c.Valid) : (ops.foldl applyOp c).Valid := by
  induction ops generalizing c with
  | nil => exact hc
  | cons op ops ih =>
    apply ih
    cases op with
    | insert v expires => exact CacheMultiMap.insert_valid hc
    | erase key p => exact CacheMultiMap.erase_valid hc

theorem held_inserted {S : Set CGovernanceVote} (parent : Uint256) (ops : List CacheOp) {c : OrphanVotes}
    (hops : ∀ w t, .insert w t ∈ ops → w.nParentHash = parent → w ∈ S)
    (hc : ∀ n ∈ c.listItems, n.item.key = parent → n.item.value.1 ∈ S) :
    ∀ n ∈ (ops.foldl applyOp c).listItems, n.item.key = parent → n.item.value.1 ∈ S := by
  induction ops generalizing c with
  | nil => exact hc
  | cons op ops ih =>
    apply ih (fun w t h => hops w t (List.mem_cons_of_mem _ h))
    intro n hn hkey
    cases op with
    | insert v expires =>
      rcases CacheMultiMap.mem_listItems_insert hn with hold | hnew
      · exact hc n hold hkey
      · rw [hnew] at hkey ⊢
        exact hops v expires List.mem_cons_self hkey
    | erase key p => exact hc n (CacheMultiMap.mem_listItems_erase hn) hkey

theorem makeRoom_empty (nMaxSize : Nat) : (CacheMultiMap.empty nMaxSize : OrphanVotes).makeRoom = .empty nMaxSize := by
  unfold CacheMultiMap.makeRoom
  split <;> rfl

/-- Of two votes for one parent, the second inserted right after the first is refused. -/
theorem second_insert_rejected (nMaxSize : Nat) (hmax : nMaxSize ≠ 1) (a b : CGovernanceVote) (parent : Uint256) :
    let c : OrphanVotes := ((CacheMultiMap.empty nMaxSize : OrphanVotes).insert parent (a, 0)).2
    (c.insert parent (b, 0)).1 = false ∧ ∀ n ∈ (c.insert parent (b, 0)).2.listItems, n.item.value.1 = a := by
  intro c
  have hnew : ((CacheMultiMap.empty nMaxSize : OrphanVotes).insert parent (a, 0)).1 = true := by
    rw [← Bool.not_eq_false, CacheMultiMap.insert_rejected, makeRoom_empty]
    simp [CacheMultiMap.entry, CacheMultiMap.empty]
  have hroom : c.makeRoom = c := by
    have hsize : c.nCurrentSize = 1 := by rw [CacheMultiMap.nCurrentSize_insert, hnew, makeRoom_empty]; rfl
    have hbound : c.nMaxSize = nMaxSize := CacheMultiMap.nMaxSize_insert
    unfold CacheMultiMap.makeRoom
    rw [if_neg (by rw [hsize, hbound]; exact Ne.symm hmax)]
  have hrejected : (c.insert parent (b, 0)).1 = false := by
    rw [CacheMultiMap.insert_rejected, hroom, CacheMultiMap.entry_insert,
      if_pos ⟨hnew, Std.ReflCmp.compare_self, VoteTimePair.cmpOf_eq ..⟩]
    rfl
  refine ⟨hrejected, fun n hn => ?_⟩
  rw [CacheMultiMap.listItems_insert, hrejected, if_neg (by decide), hroom, CacheMultiMap.listItems_insert, hnew, if_pos rfl,
    makeRoom_empty] at hn
  rw [List.mem_singleton.1 hn]

theorem orphansKept_iff (S : Set CGovernanceVote) (parent : Uint256) :
    OrphansKept S parent ↔ AllEqual {v ∈ S | v.nParentHash = parent} := by
  constructor
  · rintro h a ⟨ha, hpa⟩ b ⟨hb, hpb⟩
    obtain ⟨hrejected, hheld⟩ := second_insert_rejected 2 (by decide) b a parent
    obtain ⟨w, ⟨n, hn, -, hw⟩, heq⟩ := h 2 [.insert b 0] a 0 (by decide) (by simpa using fun _ => hb) ha hpa (by
      simpa [applyOp, hpb] using hrejected)
    have hnb : n.item.value.1 = b := hheld n (by simpa [applyOp, hpb] using hn)
    rw [← hw, hnb] at heq
    simp only [CGovernanceVote.equal, Bool.and_eq_true, beq_iff_eq] at heq ⊢
    simp [heq]
  · intro hall nMaxSize ops v expires _ hops hv hparent hrejected
    have hvalid : (ops.foldl applyOp (.empty nMaxSize)).Valid := foldl_applyOp_valid ops (CacheMultiMap.empty_valid nMaxSize)
    obtain ⟨n, hn, hkey, -⟩ := CacheMultiMap.held_of_rejected hvalid hrejected
    have hkey : n.item.key = parent := Std.LawfulEqOrd.eq_of_compare hkey
    -- what is held for the parent is a vote of the set, so it equals the refused one
    have hheld := held_inserted (S := {v ∈ S | v.nParentHash = parent}) parent (ops ++ [.insert v expires])
      (c := .empty nMaxSize) (fun w t hw hwp => ?_) (by simp [CacheMultiMap.empty]) n ?_ hkey
    · exact ⟨_, ⟨n, hn, hkey, rfl⟩, hall _ hheld _ ⟨hv, hparent⟩⟩
    · rcases List.mem_append.1 hw with hw | hw
      · exact ⟨hops w t hw hwp, hwp⟩
      · cases List.mem_singleton.1 hw
        exact ⟨hv, hwp⟩
    · rw [List.foldl_append]
      simpa [applyOp, hparent] using hn

theorem votes_ordered_iff (S : Set CGovernanceVote) :
    ((Ordered S ∧ ∀ parent, OrphansKept S parent) ↔ AllEqual S) ∧ (Ordered S ↔ AllEqual S) ∧
      ∀ parent, OrphansKept S parent ↔ AllEqual {v ∈ S | v.nParentHash = parent} := by
  refine ⟨⟨fun h => (ordered_iff S).1 h.1, fun h => ⟨(ordered_iff S).2 h, fun parent => ?_⟩⟩, ordered_iff S, orphansKept_iff S⟩
  exact (orphansKept_iff S parent).2 fun a ha b hb => h a ha.1 b hb.1

def orphanVote (k : Nat) : CGovernanceVote := ⟨1, ⟨⟨7, k⟩, [], 0⟩, 9, 1, 100, []⟩

theorem second_orphan_vote_refused :
    (orphanVote 1).equal (orphanVote 2) = false ∧ ¬ Ordered {orphanVote 1, orphanVote 2} ∧
      ¬ OrphansKept {orphanVote 1, orphanVote 2} 9 := by
  refine ⟨by decide, fun h => ?_, fun h => ?_⟩
  · have hclass := h.classes (orphanVote 1) (by simp) (orphanVote 2) (by simp)
    exact absurd (hclass.1 (by decide)) (by decide)
  · obtain ⟨hrejected, hheld⟩ := second_insert_rejected 1000000 (by decide) (orphanVote 1) (orphanVote 2) 9
    obtain ⟨w, ⟨n, hn, -, hw⟩, heq⟩ := h 1000000 [.insert (orphanVote 1) 0] (orphanVote 2) 0 (by decide) (by simp)
      (by simp) rfl hrejected
    rw [← hw, hheld n hn] at heq
    exact absurd heq (by decide)

end Zumy.Governance
