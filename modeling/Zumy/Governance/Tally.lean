/-
  Zumy.Governance.Tally — the tally of an object and the order of its votes.

  An instance takes a vote unless the vote is older than the one it holds, so of the votes
  with the newest time the last to arrive stands.

  - `tally_order_free_iff`: the sets of valid votes whose tally is the same in every order.
  - `tie_decided_by_order`: a masternode's yes and no of one second.
-/
import Zumy.Governance.Records
import Zumy.Governance.Manager

namespace Zumy.Governance

open Lib

def voteOutcomeAbstain : Nat := 3

variable {voteHash : CGovernanceVote → Uint256} {cx : VoteContext} {idx : CTxIn → Int} {o o' : CGovernanceObject}
variable {v w : CGovernanceVote} {votes votes' : List CGovernanceVote} {i j : Int} {eSignal x : Nat}

namespace CGovernanceObject

def getYesCount (o : CGovernanceObject) (eSignal : Nat) : Nat := o.countMatchingVotes eSignal voteOutcomeYes
def getNoCount (o : CGovernanceObject) (eSignal : Nat) : Nat := o.countMatchingVotes eSignal voteOutcomeNo
def getAbstainCount (o : CGovernanceObject) (eSignal : Nat) : Nat := o.countMatchingVotes eSignal voteOutcomeAbstain

/-- The votes are processed in the order of the list, the number of each masternode fixed. -/
def processVotes (voteHash : CGovernanceVote → Uint256) (cx : VoteContext) (idx : CTxIn → Int) (o : CGovernanceObject)
    (votes : List CGovernanceVote) : CGovernanceObject :=
  votes.foldl (fun o v => (o.processVote voteHash cx (idx v.vinMasternode) v).2) o

/-! ## One instance -/

theorem voteInstance_eq (o : CGovernanceObject) (i : Int) (eSignal : Nat) :
    o.voteInstance i eSignal = (o.instanceAt i eSignal).getD .none := by
  rw [voteInstance, recVote_lookup]

theorem voteInstance_congr (h : o'.mapCurrentMNVotes = o.mapCurrentMNVotes) (i : Int) (eSignal : Nat) :
    o'.voteInstance i eSignal = o.voteInstance i eSignal := by
  have hinst := instanceAt_congr (show o'.mapCurrentMNVotes[i]? = o.mapCurrentMNVotes[i]? by rw [h]) eSignal
  rw [voteInstance_eq, voteInstance_eq, hinst]

theorem putRec_voteInstance (o : CGovernanceObject) (i j : Int) (eSignal : Nat) :
    (o.putRec i (o.recVote i)).voteInstance j eSignal = o.voteInstance j eSignal := by
  rw [voteInstance_eq, voteInstance_eq, putRec_instanceAt]
  by_cases hj : j = i
  · rw [if_pos hj, recVote_lookup, hj]
  · rw [if_neg hj]

theorem putInstance_voteInstance (o : CGovernanceObject) (i j : Int) (e eSignal : Nat) (inst : VoteInstance) :
    (o.putInstance i e inst).voteInstance j eSignal = if j = i ∧ eSignal = e then inst else o.voteInstance j eSignal := by
  rw [voteInstance_eq, voteInstance_eq]
  by_cases hj : j = i
  · subst hj
    rw [putInstance_instanceAt]
    by_cases he : eSignal = e <;> simp [he]
  · rw [putInstance, putRec_instanceAt, if_neg hj, if_neg fun h => hj h.1]

/-- The votes `ProcessVote` can count: their masternode has a number and their signal is supported. -/
def Countable (idx : CTxIn → Int) (v : CGovernanceVote) : Prop :=
  0 ≤ idx v.vinMasternode ∧ v.getSignal ≠ voteSignalNone ∧ v.getSignal ≤ maxSupportedVoteSignal

end CGovernanceObject

def VoteInstance.take (inst : VoteInstance) (v : CGovernanceVote) : VoteInstance :=
  if v.nTime < inst.nCreationTime then inst else ⟨v.getOutcome, inst.nTime, v.nTime⟩

namespace CGovernanceObject

theorem processVote_countable (hrate : cx.fRateChecksEnabled = false) (hvalid : cx.isValid v = true) (hcount : Countable idx v) :
    (o.processVote voteHash cx (idx v.vinMasternode) v).2.mapCurrentMNVotes =
      (o.putInstance (idx v.vinMasternode) v.getSignal
        ((o.voteInstance (idx v.vinMasternode) v.getSignal).take v)).mapCurrentMNVotes := by
  obtain ⟨hi, hnone, hsupported⟩ := hcount
  unfold processVote VoteInstance.take
  rw [if_neg (not_lt.2 hi)]
  simp only [if_neg hnone, if_neg (not_lt.2 hsupported), hrate, hvalid, Bool.false_and, Bool.not_true,
    Bool.false_eq_true, if_false]
  by_cases hold : v.nTime < (o.voteInstance (idx v.vinMasternode) v.getSignal).nCreationTime
  · simp only [if_pos hold]
  · simp only [if_neg hold]

theorem processVote_voteInstance (hrate : cx.fRateChecksEnabled = false) (hvalid : cx.isValid v = true)
    (hcount : Countable idx v) (j : Int) (eSignal : Nat) :
    (o.processVote voteHash cx (idx v.vinMasternode) v).2.voteInstance j eSignal =
      if j = idx v.vinMasternode ∧ eSignal = v.getSignal then (o.voteInstance j eSignal).take v else o.voteInstance j eSignal := by
  rw [voteInstance_congr (processVote_countable hrate hvalid hcount), putInstance_voteInstance]
  by_cases hplace : j = idx v.vinMasternode ∧ eSignal = v.getSignal
  · rw [if_pos hplace, if_pos hplace, hplace.1, hplace.2]
  · rw [if_neg hplace, if_neg hplace]

theorem processVote_not_countable (hcount : ¬ Countable idx v) (j : Int) (eSignal : Nat) :
    (o.processVote voteHash cx (idx v.vinMasternode) v).2.voteInstance j eSignal = o.voteInstance j eSignal := by
  unfold processVote
  by_cases hi : idx v.vinMasternode < 0
  · rw [if_pos hi]
    exact voteInstance_congr rfl j eSignal
  · by_cases hnone : v.getSignal = voteSignalNone
    · simp only [if_neg hi, if_pos hnone]
      exact putRec_voteInstance o _ j eSignal
    · have hunsupported : v.getSignal > maxSupportedVoteSignal := by
        by_contra hle
        exact hcount ⟨not_lt.1 hi, hnone, not_lt.1 hle⟩
      simp only [if_neg hi, if_neg hnone, if_pos hunsupported]
      exact putRec_voteInstance o _ j eSignal

def votesAt (idx : CTxIn → Int) (votes : List CGovernanceVote) (i : Int) (eSignal : Nat) : List CGovernanceVote :=
  votes.filter fun v => idx v.vinMasternode = i ∧ v.getSignal = eSignal

def Place (i : Int) (eSignal : Nat) : Prop := 0 ≤ i ∧ eSignal ≠ voteSignalNone ∧ eSignal ≤ maxSupportedVoteSignal

/-- The induction is on the votes; each one is for one place. -/
theorem processVotes_voteInstance (hrate : cx.fRateChecksEnabled = false) (hvalid : ∀ v ∈ votes, cx.isValid v = true)
    (hplace : Place i eSignal) : (o.processVotes voteHash cx idx votes).voteInstance i eSignal =
      (votesAt idx votes i eSignal).foldl VoteInstance.take (o.voteInstance i eSignal) := by
  induction votes generalizing o with
  | nil => rfl
  | cons v votes ih =>
    have hrest := ih (o := (o.processVote voteHash cx (idx v.vinMasternode) v).2) fun w hw => hvalid w (by simp [hw])
    apply hrest.trans
    by_cases hv : idx v.vinMasternode = i ∧ v.getSignal = eSignal
    · obtain ⟨rfl, rfl⟩ := hv
      rw [processVote_voteInstance hrate (hvalid v (by simp)) hplace, if_pos ⟨rfl, rfl⟩]
      simp [votesAt]
    · have hsame : (o.processVote voteHash cx (idx v.vinMasternode) v).2.voteInstance i eSignal = o.voteInstance i eSignal := by
        by_cases hcount : Countable idx v
        · rw [processVote_voteInstance hrate (hvalid v (by simp)) hcount, if_neg]
          intro h
          exact hv ⟨h.1.symm, h.2.symm⟩
        · exact processVote_not_countable hcount i eSignal
      rw [hsame]
      simp [votesAt, hv]

theorem processVotes_not_place (hrate : cx.fRateChecksEnabled = false) (hvalid : ∀ v ∈ votes, cx.isValid v = true)
    (hplace : ¬ Place i eSignal) : (o.processVotes voteHash cx idx votes).voteInstance i eSignal = o.voteInstance i eSignal := by
  induction votes generalizing o with
  | nil => rfl
  | cons v votes ih =>
    apply (ih (o := (o.processVote voteHash cx (idx v.vinMasternode) v).2) fun w hw => hvalid w (by simp [hw])).trans
    by_cases hcount : Countable idx v
    · rw [processVote_voteInstance hrate (hvalid v (by simp)) hcount, if_neg]
      intro h
      rcases h with ⟨rfl, rfl⟩
      exact hplace hcount
    · exact processVote_not_countable hcount i eSignal

/-! ## The vote that stands -/

theorem foldl_take_nCreationTime_le {l : List CGovernanceVote} {inst : VoteInstance} {t : Int} (hinst : inst.nCreationTime ≤ t)
    (hl : ∀ v ∈ l, v.nTime ≤ t) : (l.foldl VoteInstance.take inst).nCreationTime ≤ t := by
  induction l generalizing inst with
  | nil => exact hinst
  | cons v l ih =>
    refine ih ?_ fun w hw => hl w (by simp [hw])
    unfold VoteInstance.take
    split
    · exact hinst
    · exact hl v (by simp)

theorem foldl_take_cases (l : List CGovernanceVote) (inst : VoteInstance) :
    (l.foldl VoteInstance.take inst = inst ∧ ∀ v ∈ l, v.nTime < inst.nCreationTime) ∨
    ∃ v ∈ l, inst.nCreationTime ≤ v.nTime ∧ (∀ w ∈ l, w.nTime ≤ v.nTime) ∧
      (l.foldl VoteInstance.take inst).eOutcome = v.getOutcome := by
  induction l generalizing inst with
  | nil => exact .inl ⟨rfl, fun v hv => by cases hv⟩
  | cons u l ih =>
    rw [List.foldl_cons]
    by_cases hold : u.nTime < inst.nCreationTime
    · have htake : inst.take u = inst := if_pos hold
      rw [htake]
      rcases ih inst with ⟨hsame, hall⟩ | ⟨v, hv, hnew, hmax, hout⟩
      · refine .inl ⟨hsame, fun w hw => ?_⟩
        rcases List.mem_cons.1 hw with rfl | hw
        · exact hold
        · exact hall w hw
      · refine .inr ⟨v, by simp [hv], hnew, fun w hw => ?_, hout⟩
        rcases List.mem_cons.1 hw with rfl | hw
        · omega
        · exact hmax w hw
    · have htake : inst.take u = ⟨u.getOutcome, inst.nTime, u.nTime⟩ := if_neg hold
      rw [htake]
      rcases ih ⟨u.getOutcome, inst.nTime, u.nTime⟩ with ⟨hsame, hall⟩ | ⟨v, hv, hnew, hmax, hout⟩
      · refine .inr ⟨u, by simp, by omega, fun w hw => ?_, by rw [hsame]⟩
        rcases List.mem_cons.1 hw with rfl | hw
        · exact le_rfl
        · exact (hall w hw).le
      · have hnew' : u.nTime ≤ v.nTime := hnew
        refine .inr ⟨v, by simp [hv], by omega, fun w hw => ?_, hout⟩
        rcases List.mem_cons.1 hw with rfl | hw
        · exact hnew'
        · exact hmax w hw

theorem foldl_take_last {l : List CGovernanceVote} {inst : VoteInstance} (hinst : inst.nCreationTime ≤ v.nTime)
    (hl : ∀ w ∈ l, w.nTime ≤ v.nTime) : ((l ++ [v]).foldl VoteInstance.take inst).eOutcome = v.getOutcome := by
  have hle := foldl_take_nCreationTime_le hinst hl
  rw [List.foldl_append, List.foldl_cons, List.foldl_nil, VoteInstance.take, if_neg (not_lt.2 hle)]

/-! ## Counting -/

/-- The numbers whose instance has an outcome, among those of a set that has every record. -/
theorem countMatchingVotes_eq_card {S : Finset Int} (hS : ∀ i, o.mapCurrentMNVotes.contains i = true → i ∈ S)
    (hx : x ≠ voteOutcomeNone) :
    o.countMatchingVotes eSignal x = (S.filter fun i => (o.voteInstance i eSignal).eOutcome = x).card := by
  have hkeys : (o.mapCurrentMNVotes.toList.map (·.1)).Nodup := by
    rw [Std.TreeMap.map_fst_toList_eq_keys]
    exact Std.TreeMap.nodup_keys
  have hcount (i : Int) : (o.voteInstance i eSignal).eOutcome = x ↔ ∃ r, o.mapCurrentMNVotes[i]? = some r ∧
      (r.mapInstances[eSignal]?).any (·.eOutcome == x) = true := by
    rw [voteInstance_eq, instanceAt]
    cases hr : o.mapCurrentMNVotes[i]? with
    | none => simpa [VoteInstance.none] using hx.symm
    | some r =>
      cases hinst : r.mapInstances[eSignal]? with
      | none => simpa [hinst, VoteInstance.none] using hx.symm
      | some inst => simp [hinst]
  unfold countMatchingVotes
  rw [List.countP_eq_length_filter, ← List.length_map (f := (·.1)),
    ← List.toFinset_card_of_nodup (hkeys.sublist (List.filter_sublist.map _))]
  congr 1
  ext i
  simp only [List.mem_toFinset, List.mem_map, List.mem_filter, Prod.exists, exists_and_right, exists_eq_right,
    Std.TreeMap.mem_toList_iff_getElem?_eq_some, Finset.mem_filter, hcount]
  constructor
  · intro hex
    obtain ⟨r, hr, hany⟩ := hex
    exact ⟨hS i (contains_iff.2 ⟨r, hr⟩), r, hr, hany⟩
  · intro hboth
    obtain ⟨-, h⟩ := hboth
    exact h

end CGovernanceObject

/-! ## The order of the votes -/

open CGovernanceObject

def countedOutcomes : List Nat := [voteOutcomeYes, voteOutcomeNo, voteOutcomeAbstain]

def SameTally (o o' : CGovernanceObject) : Prop :=
  ∀ eSignal, o.getYesCount eSignal = o'.getYesCount eSignal ∧ o.getNoCount eSignal = o'.getNoCount eSignal ∧
    o.getAbstainCount eSignal = o'.getAbstainCount eSignal

theorem sameTally_iff : SameTally o o' ↔
    ∀ eSignal, ∀ x ∈ countedOutcomes, o.countMatchingVotes eSignal x = o'.countMatchingVotes eSignal x := by
  simp [SameTally, countedOutcomes, getYesCount, getNoCount, getAbstainCount]

def CountAlike (a b : Nat) : Prop := ∀ x ∈ countedOutcomes, a = x ↔ b = x

/-- The vote can be counted, is not older than the instance the object has, and no vote for
its place is newer. -/
structure IsLatest (idx : CTxIn → Int) (o : CGovernanceObject) (votes : List CGovernanceVote) (v : CGovernanceVote) : Prop where
  countable : Countable idx v
  notOld : (o.voteInstance (idx v.vinMasternode) v.getSignal).nCreationTime ≤ v.nTime
  newest : ∀ w ∈ votes, idx w.vinMasternode = idx v.vinMasternode → w.getSignal = v.getSignal → w.nTime ≤ v.nTime

def TiesAgree (idx : CTxIn → Int) (o : CGovernanceObject) (votes : List CGovernanceVote) : Prop :=
  ∀ v ∈ votes, ∀ w ∈ votes, idx v.vinMasternode = idx w.vinMasternode → v.getSignal = w.getSignal →
    IsLatest idx o votes v → IsLatest idx o votes w → CountAlike v.getOutcome w.getOutcome

theorem ne_none_of_counted (hx : x ∈ countedOutcomes) : x ≠ voteOutcomeNone := by
  rintro rfl
  simp [countedOutcomes, voteOutcomeNone, voteOutcomeYes, voteOutcomeNo, voteOutcomeAbstain] at hx

theorem mem_votesAt : v ∈ votesAt idx votes i eSignal ↔ v ∈ votes ∧ idx v.vinMasternode = i ∧ v.getSignal = eSignal := by
  simp [votesAt]

theorem isLatest_of_votesAt (hplace : Place i eSignal) (hv : v ∈ votesAt idx votes i eSignal)
    (hnew : (o.voteInstance i eSignal).nCreationTime ≤ v.nTime) (hmax : ∀ w ∈ votesAt idx votes i eSignal, w.nTime ≤ v.nTime) :
    IsLatest idx o votes v := by
  obtain ⟨-, rfl, rfl⟩ := mem_votesAt.1 hv
  exact ⟨hplace, hnew, fun w hw hi hs => hmax w (mem_votesAt.2 ⟨hw, hi, hs⟩)⟩

theorem countAlike_of_tiesAgree (hrate : cx.fRateChecksEnabled = false) (hvalid : ∀ v ∈ votes, cx.isValid v = true)
    (hties : TiesAgree idx o votes) (hperm : votes'.Perm votes) (i : Int) (eSignal : Nat) :
    CountAlike ((o.processVotes voteHash cx idx votes').voteInstance i eSignal).eOutcome
      ((o.processVotes voteHash cx idx votes).voteInstance i eSignal).eOutcome := by
  have hvalid' : ∀ v ∈ votes', cx.isValid v = true := fun v hv => hvalid v (hperm.mem_iff.1 hv)
  by_cases hplace : Place i eSignal
  · rw [processVotes_voteInstance hrate hvalid hplace, processVotes_voteInstance hrate hvalid' hplace]
    have hmem (w : CGovernanceVote) : w ∈ votesAt idx votes' i eSignal ↔ w ∈ votesAt idx votes i eSignal := by
      rw [mem_votesAt, mem_votesAt, hperm.mem_iff]
    rcases foldl_take_cases (votesAt idx votes' i eSignal) (o.voteInstance i eSignal) with
      ⟨hsame, hold⟩ | ⟨v, hv, hvnew, hvmax, hvout⟩
    · rcases foldl_take_cases (votesAt idx votes i eSignal) (o.voteInstance i eSignal) with
        ⟨hsame', -⟩ | ⟨w, hw, hwnew, -, -⟩
      · rw [hsame, hsame']
        intro x _
        exact Iff.rfl
      · exact absurd (hold w ((hmem w).2 hw)) (not_lt.2 hwnew)
    · rcases foldl_take_cases (votesAt idx votes i eSignal) (o.voteInstance i eSignal) with
        ⟨-, hold⟩ | ⟨w, hw, hwnew, hwmax, hwout⟩
      · exact absurd (hold v ((hmem v).1 hv)) (not_lt.2 hvnew)
      · rw [hvout, hwout]
        have hv' := (hmem v).1 hv
        obtain ⟨hvin, hvi, hvs⟩ := mem_votesAt.1 hv'
        obtain ⟨hwin, hwi, hws⟩ := mem_votesAt.1 hw
        exact hties v hvin w hwin (hvi.trans hwi.symm) (hvs.trans hws.symm)
          (isLatest_of_votesAt hplace hv' hvnew fun u hu => hvmax u ((hmem u).2 hu))
          (isLatest_of_votesAt hplace hw hwnew hwmax)
  · rw [processVotes_not_place hrate hvalid hplace, processVotes_not_place hrate hvalid' hplace]
    intro x _
    exact Iff.rfl

def numbers (o o' : CGovernanceObject) (i : Int) : Finset Int :=
  insert i (o.mapCurrentMNVotes.keys.toFinset ∪ o'.mapCurrentMNVotes.keys.toFinset)

theorem mem_numbers_left (h : o.mapCurrentMNVotes.contains j = true) : j ∈ numbers o o' i := by
  simp only [numbers, Finset.mem_insert, Finset.mem_union, List.mem_toFinset, Std.TreeMap.mem_keys]
  exact .inr (.inl h)

theorem mem_numbers_right (h : o'.mapCurrentMNVotes.contains j = true) : j ∈ numbers o o' i := by
  simp only [numbers, Finset.mem_insert, Finset.mem_union, List.mem_toFinset, Std.TreeMap.mem_keys]
  exact .inr (.inr h)

theorem sameTally_of_countAlike
    (h : ∀ i eSignal, CountAlike (o.voteInstance i eSignal).eOutcome (o'.voteInstance i eSignal).eOutcome) : SameTally o o' := by
  rw [sameTally_iff]
  intro eSignal x hx
  have hne := ne_none_of_counted hx
  rw [countMatchingVotes_eq_card (S := numbers o o' 0) (fun j => mem_numbers_left) hne,
    countMatchingVotes_eq_card (S := numbers o o' 0) (fun j => mem_numbers_right) hne]
  congr 1
  exact Finset.filter_congr fun i _ => h i eSignal x hx

theorem countMatchingVotes_ne (hx : x ∈ countedOutcomes) (hi : (o.voteInstance i eSignal).eOutcome = x)
    (hi' : (o'.voteInstance i eSignal).eOutcome ≠ x)
    (hother : ∀ j, j ≠ i → o.voteInstance j eSignal = o'.voteInstance j eSignal) :
    o.countMatchingVotes eSignal x ≠ o'.countMatchingVotes eSignal x := by
  have hne := ne_none_of_counted hx
  rw [countMatchingVotes_eq_card (S := numbers o o' i) (fun j => mem_numbers_left) hne,
    countMatchingVotes_eq_card (S := numbers o o' i) (fun j => mem_numbers_right) hne]
  have hmem : i ∈ (numbers o o' i).filter fun j => (o.voteInstance j eSignal).eOutcome = x :=
    Finset.mem_filter.2 ⟨Finset.mem_insert_self _ _, hi⟩
  have herase : ((numbers o o' i).filter fun j => (o'.voteInstance j eSignal).eOutcome = x) =
      ((numbers o o' i).filter fun j => (o.voteInstance j eSignal).eOutcome = x).erase i := by
    ext j
    simp only [Finset.mem_filter, Finset.mem_erase]
    by_cases hj : j = i
    · subst hj
      simp [hi']
    · simp [hj, hother j hj]
  rw [herase]
  exact (Finset.card_erase_lt_of_mem hmem).ne'

theorem exists_orders (hv : v ∈ votes) (hw : w ∈ votes) (hne : v ≠ w) :
    ∃ rest, (rest ++ [w, v]).Perm votes ∧ (rest ++ [v, w]).Perm votes := by
  have hw' : w ∈ votes.erase v := (List.mem_erase_of_ne hne.symm).2 hw
  have hperm : (v :: w :: (votes.erase v).erase w).Perm votes :=
    ((List.perm_cons_erase hw').symm.cons v).trans (List.perm_cons_erase hv).symm
  refine ⟨(votes.erase v).erase w, ?_, ?_⟩
  · exact (List.perm_append_comm.trans (List.Perm.swap v w _)).trans hperm
  · exact List.perm_append_comm.trans hperm

variable (voteHash) in
theorem outcome_of_last (hrate : cx.fRateChecksEnabled = false) (hvalid : ∀ v ∈ votes, cx.isValid v = true)
    (hlatest : IsLatest idx o votes v) {l : List CGovernanceVote} (hperm : (l ++ [v]).Perm votes) :
    ((o.processVotes voteHash cx idx (l ++ [v])).voteInstance (idx v.vinMasternode) v.getSignal).eOutcome = v.getOutcome := by
  have hvalid' : ∀ u ∈ l ++ [v], cx.isValid u = true := fun u hu => hvalid u (hperm.mem_iff.1 hu)
  have hlast : votesAt idx (l ++ [v]) (idx v.vinMasternode) v.getSignal =
      votesAt idx l (idx v.vinMasternode) v.getSignal ++ [v] := by simp [votesAt]
  rw [processVotes_voteInstance hrate hvalid' hlatest.countable, hlast]
  apply foldl_take_last hlatest.notOld
  intro u hu
  obtain ⟨hin, hi, hs⟩ := mem_votesAt.1 hu
  exact hlatest.newest u (hperm.mem_iff.1 (by simp [hin])) hi hs

/-- Votes of one masternode, swapped, change no other masternode's instances. -/
theorem voteInstance_swap (hrate : cx.fRateChecksEnabled = false) {rest : List CGovernanceVote}
    (hvalid : ∀ u ∈ rest ++ [w, v], cx.isValid u = true) (hvw : idx v.vinMasternode = idx w.vinMasternode)
    (hj : j ≠ idx v.vinMasternode) (eSignal : Nat) :
    (o.processVotes voteHash cx idx (rest ++ [w, v])).voteInstance j eSignal =
      (o.processVotes voteHash cx idx (rest ++ [v, w])).voteInstance j eSignal := by
  have hvalid' : ∀ u ∈ rest ++ [v, w], cx.isValid u = true := by
    intro u hu
    apply hvalid u
    simp only [List.mem_append, List.mem_cons, List.not_mem_nil, or_false] at hu ⊢
    exact hu.imp_right Or.symm
  by_cases hplace : Place j eSignal
  · have hv : ¬ (idx v.vinMasternode = j ∧ v.getSignal = eSignal) := fun h => hj h.1.symm
    have hw : ¬ (idx w.vinMasternode = j ∧ w.getSignal = eSignal) := fun h => hj (hvw.trans h.1).symm
    rw [processVotes_voteInstance hrate hvalid hplace, processVotes_voteInstance hrate hvalid' hplace]
    simp only [votesAt, List.filter_append, List.filter_cons, List.filter_nil, hv, hw, decide_false, Bool.false_eq_true, if_false]
  · rw [processVotes_not_place hrate hvalid hplace, processVotes_not_place hrate hvalid' hplace]

/-- A latest vote whose outcome is `x`, and one whose outcome is not: some order changes the count of `x`. -/
theorem exists_order_of_tie (hrate : cx.fRateChecksEnabled = false) (hvalid : ∀ v ∈ votes, cx.isValid v = true)
    (hv : v ∈ votes) (hw : w ∈ votes) (hi : idx v.vinMasternode = idx w.vinMasternode) (hs : v.getSignal = w.getSignal)
    (hlv : IsLatest idx o votes v) (hlw : IsLatest idx o votes w) (hx : x ∈ countedOutcomes)
    (hvx : v.getOutcome = x) (hwx : w.getOutcome ≠ x) :
    ¬ ∀ votes', votes'.Perm votes → SameTally (o.processVotes voteHash cx idx votes') (o.processVotes voteHash cx idx votes) := by
  intro hall
  have hne : v ≠ w := by
    rintro rfl
    exact hwx hvx
  obtain ⟨rest, hperm, hperm'⟩ := exists_orders hv hw hne
  have hvalid' : ∀ u ∈ rest ++ [w, v], cx.isValid u = true := fun u hu => hvalid u (hperm.mem_iff.1 hu)
  have hsame := sameTally_iff.1 (hall _ hperm) v.getSignal x hx
  have hsame' := sameTally_iff.1 (hall _ hperm') v.getSignal x hx
  refine countMatchingVotes_ne hx (i := idx v.vinMasternode) ?_ ?_ ?_ (hsame.trans hsame'.symm)
  · have hlast := outcome_of_last voteHash hrate hvalid hlv (l := rest ++ [w]) (by simpa using hperm)
    rw [← hvx, ← hlast, List.append_assoc]
    rfl
  · have hlast := outcome_of_last voteHash hrate hvalid hlw (l := rest ++ [v]) (by simpa using hperm')
    rw [hi, hs]
    rw [List.append_assoc] at hlast
    intro h
    exact hwx (hlast.symm.trans h)
  · intro j hj
    exact voteInstance_swap hrate hvalid' hi hj v.getSignal

theorem tally_order_free_iff (hrate : cx.fRateChecksEnabled = false) (hvalid : ∀ v ∈ votes, cx.isValid v = true) :
    (∀ votes', votes'.Perm votes → SameTally (o.processVotes voteHash cx idx votes') (o.processVotes voteHash cx idx votes)) ↔
      TiesAgree idx o votes := by
  constructor
  · intro hall v hv w hw hi hs hlv hlw x hx
    constructor
    · intro hvx
      by_contra hwx
      exact exists_order_of_tie hrate hvalid hv hw hi hs hlv hlw hx hvx hwx hall
    · intro hwx
      by_contra hvx
      exact exists_order_of_tie hrate hvalid hw hv hi.symm hs.symm hlw hlv hx hwx hvx hall
  · intro hties votes' hperm
    exact sameTally_of_countAlike fun i eSignal => countAlike_of_tiesAgree hrate hvalid hties hperm i eSignal

/-! ## A tie -/

/-- Masternode 1's vote against funding, of the same second as its vote for it. -/
def againstVote (nParentHash : Uint256) : CGovernanceVote := { fundingVote 1 nParentHash with nVoteOutcome := 2 }

def freeContext : VoteContext :=
  ⟨100000, 100000, false, CGovernanceVote.isValid 100000 (fun _ => some [1]) fun _ _ _ => true⟩

def proposal9 : CGovernanceObject := .received 9 governanceObjectProposal 99000 (masternodeVin 1) [] false

def outpointNumber (vin : CTxIn) : Int := vin.prevout.n

theorem tie_decided_by_order :
    (∀ v ∈ [fundingVote 1 9, againstVote 9], freeContext.isValid v = true) ∧
    ¬ ∀ votes', votes'.Perm [fundingVote 1 9, againstVote 9] →
      SameTally (proposal9.processVotes smallHash freeContext outpointNumber votes')
        (proposal9.processVotes smallHash freeContext outpointNumber [fundingVote 1 9, againstVote 9]) := by
  refine ⟨by decide, fun hall => ?_⟩
  have hyes := (hall [againstVote 9, fundingVote 1 9] (List.Perm.swap _ _ _) voteSignalFunding).1
  revert hyes
  decide

/-- Two masternodes' votes come in any order. -/
theorem tally_order_free_two :
    (∀ votes', votes'.Perm [fundingVote 1 9, fundingVote 2 9] →
      SameTally (proposal9.processVotes smallHash freeContext outpointNumber votes')
        (proposal9.processVotes smallHash freeContext outpointNumber [fundingVote 1 9, fundingVote 2 9])) ↔
      TiesAgree outpointNumber proposal9 [fundingVote 1 9, fundingVote 2 9] :=
  tally_order_free_iff rfl (by decide)

end Zumy.Governance
