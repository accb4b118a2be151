/-
  Zumy.Masternode.IndexRuns — the numbering of the masternodes over runs that also write it
  and read it again.

  `RebuildIndex` does not clear `mapReverseIndex`: what the index had numbered stays there.
  `Extends` says when a map that is read leaves nothing behind: it numbers all that the
  index does, and alike. An index that was just constructed or cleared has no numbers.
-/
import Zumy.Lib.Run
import Zumy.Masternode.Index

namespace Zumy.Masternode

open Lib

namespace CMasternodeIndex

def rebuildIndex (x : CMasternodeIndex) : CMasternodeIndex :=
  ⟨x.mapIndex.size, x.mapIndex, x.mapIndex.toList.foldl (fun m it => m.insert it.2 it.1) x.mapReverseIndex⟩

/-- `SerializationOp` where it reads `mapIndex`. -/
def unserialize (x : CMasternodeIndex) (mapIndex : Map CTxIn Int) : CMasternodeIndex :=
  { x with mapIndex := mapIndex }.rebuildIndex

/-- The maps are inverse bijections between outpoints and the numbers below `nSize`. -/
structure Bijective (x : CMasternodeIndex) : Prop extends Valid x where
  size_eq : x.nSize = x.mapIndex.size
  onto : ∀ i : Int, 0 ≤ i → i < x.nSize → (x.get i).isSome

variable {x y : CMasternodeIndex} {vin : CTxIn}

theorem empty_bijective : empty.Bijective := ⟨empty_valid, rfl, fun _ h h' => absurd (lt_of_le_of_lt h h') (lt_irrefl 0)⟩

theorem add_bijective (h : x.Bijective) : (x.addMasternodeVIN vin).Bijective := by
  refine ⟨add_valid h.toValid, ?_, ?_⟩ <;> unfold addMasternodeVIN
  · split
    · exact h.size_eq
    · next hnone =>
      have hcontains : x.mapIndex.contains vin = false := by
        rw [← Bool.not_eq_true, Std.TreeMap.contains_eq_isSome_getElem?, hnone]
        exact Bool.false_ne_true
      rw [Std.TreeMap.size_insert, hcontains, if_neg Bool.false_ne_true, h.size_eq]
      exact (Nat.cast_add_one _).symm
  · split
    · exact h.onto
    · intro i hpos hlt
      unfold get
      rw [lookup_insert]
      split
      · rfl
      · next hne =>
        have hbound : i < x.nSize + 1 := hlt
        exact h.onto i hpos (by omega)

theorem get_foldl (its : List (CTxIn × Int)) (m : Map Int CTxIn) (i : Int) :
    (∀ vin, (its.foldl (fun m it => m.insert it.2 it.1) m)[i]? = some vin → (vin, i) ∈ its ∨ m[i]? = some vin) ∧
    ((∃ vin, (vin, i) ∈ its) ∨ m[i]?.isSome → (its.foldl (fun m it => m.insert it.2 it.1) m)[i]?.isSome) := by
  induction its generalizing m with
  | nil => exact ⟨fun vin h => .inr h, fun h => h.resolve_left (by simp)⟩
  | cons it its ih =>
    obtain ⟨hfrom, hto⟩ := ih (m.insert it.2 it.1)
    rw [List.foldl_cons]
    refine ⟨fun vin h => ?_, fun h => hto ?_⟩
    · rcases hfrom vin h with hmem | hget
      · exact .inl (List.mem_cons_of_mem _ hmem)
      · rw [lookup_insert] at hget
        split at hget
        · next heq =>
          cases hget
          subst heq
          exact .inl List.mem_cons_self
        · exact .inr hget
    · rw [lookup_insert]
      rcases h with ⟨vin, hmem⟩ | hsome
      · rcases List.mem_cons.1 hmem with rfl | hmem
        · exact .inr (by rw [if_pos rfl]; rfl)
        · exact .inl ⟨vin, hmem⟩
      · refine .inr ?_
        split
        · rfl
        · exact hsome

theorem rebuild_bijective (hy : y.Bijective) (hmap : x.mapIndex = y.mapIndex)
    (hold : ∀ (i : Int) (vin : CTxIn), x.get i = some vin → y.mapIndex[vin]? = some i) : x.rebuildIndex.Bijective := by
  have hsize : x.rebuildIndex.nSize = y.nSize := by rw [hy.size_eq, ← hmap]; rfl
  have hindexed (i : Int) (vin : CTxIn) (hget : x.rebuildIndex.get i = some vin) : y.mapIndex[vin]? = some i := by
    rcases (get_foldl x.mapIndex.toList x.mapReverseIndex i).1 vin hget with hmem | hget
    · rw [hmap, Std.TreeMap.mem_toList_iff_getKey?_eq_some_and_getElem?_eq_some] at hmem
      exact hmem.2
    · exact hold i vin hget
  have hreversed (vin : CTxIn) (i : Int) (hnum : y.mapIndex[vin]? = some i) :
      ∃ vin', x.rebuildIndex.get i = some vin' ∧ vin'.prevout = vin.prevout := by
    obtain ⟨vin', -, hmem⟩ := Std.TreeMap.getElem?_eq_some_iff_exists_compare_eq_eq_and_mem_toList.1 hnum
    rw [← hmap] at hmem
    obtain ⟨w, hw⟩ := Option.isSome_iff_exists.1 ((get_foldl x.mapIndex.toList x.mapReverseIndex i).2 (.inl ⟨vin', hmem⟩))
    exact ⟨w, hw, (hy.toValid.mapIndex_iff hnum).1 (hindexed i w hw)⟩
  refine ⟨⟨hsize ▸ hy.size, fun vin i hnum => ?_, fun vin i hnum => ?_, fun i vin hget => ?_⟩, rfl, fun i hpos hlt => ?_⟩
  · rw [hsize]
    exact hy.bounded vin i (hmap ▸ hnum)
  · exact hreversed vin i (hmap ▸ hnum)
  · exact hmap ▸ hindexed i vin hget
  · obtain ⟨w, hw⟩ := Option.isSome_iff_exists.1 (hy.onto i hpos (hsize ▸ hlt))
    obtain ⟨w', hw', -⟩ := hreversed w i (hy.indexed i w hw)
    rw [hw']
    rfl

def Extends (x : CMasternodeIndex) (mapIndex : Map CTxIn Int) : Prop :=
  x.mapIndex.toList.all (fun it => mapIndex[it.1]? == some it.2) = true

instance (x : CMasternodeIndex) (mapIndex : Map CTxIn Int) : Decidable (x.Extends mapIndex) := inferInstanceAs (Decidable (_ = true))

theorem Extends.lookup (h : x.Extends y.mapIndex) {i : Int} (hnum : x.mapIndex[vin]? = some i) : y.mapIndex[vin]? = some i := by
  obtain ⟨vin', hcmp, hmem⟩ := Std.TreeMap.getElem?_eq_some_iff_exists_compare_eq_eq_and_mem_toList.1 hnum
  have heq := List.all_eq_true.1 h _ hmem
  rw [Std.TreeMap.getElem?_congr hcmp]
  exact beq_iff_eq.1 heq

def Keeps (x y : CMasternodeIndex) : Prop :=
  ∀ (i : Int) (vin : CTxIn), x.get i = some vin → ∃ vin', y.get i = some vin' ∧ vin'.prevout = vin.prevout

theorem Keeps.of_map (hx : x.Valid) (hy : y.Valid)
    (h : ∀ (i : Int) (vin : CTxIn), x.mapIndex[vin]? = some i → y.mapIndex[vin]? = some i) : x.Keeps y :=
  fun i vin hget => hy.reversed vin i (h i vin (hx.indexed i vin hget))

theorem Keeps.trans {z : CMasternodeIndex} (h : x.Keeps y) (h' : y.Keeps z) : x.Keeps z := by
  intro i vin hget
  obtain ⟨vin', hget', heq⟩ := h i vin hget
  obtain ⟨vin'', hget'', heq'⟩ := h' i vin' hget'
  exact ⟨vin'', hget'', heq'.trans heq⟩

end CMasternodeIndex

/-! ## Runs -/

inductive IndexEvent where
  | addMasternodeVIN (vin : CTxIn)
  | clear
  | rebuildIndex
  | serialize
  /-- One of the maps that were written is read. -/
  | unserialize (i : Nat)
  deriving DecidableEq

structure IndexNode where
  index : CMasternodeIndex
  saved : List (Map CTxIn Int)

namespace IndexNode

def start : IndexNode := ⟨.empty, []⟩

def step (n : IndexNode) : IndexEvent → Option IndexNode
  | .addMasternodeVIN vin => some { n with index := n.index.addMasternodeVIN vin }
  | .clear => some { n with index := .empty }
  | .rebuildIndex => some { n with index := n.index.rebuildIndex }
  | .serialize => some { n with saved := n.index.mapIndex :: n.saved }
  | .unserialize i =>
    match n.saved[i]? with
    | none => some n
    | some mapIndex => some { n with index := n.index.unserialize mapIndex }

def StepOk (n : IndexNode) : IndexEvent → Prop
  | .unserialize i => ∀ mapIndex ∈ n.saved[i]?, n.index.Extends mapIndex
  | _ => True

instance (n : IndexNode) : (e : IndexEvent) → Decidable (StepOk n e)
  | .unserialize i => inferInstanceAs (Decidable (∀ mapIndex ∈ n.saved[i]?, n.index.Extends mapIndex))
  | .addMasternodeVIN _ | .clear | .rebuildIndex | .serialize => .isTrue trivial

structure Inv (n : IndexNode) : Prop where
  index : n.index.Bijective
  saved : ∀ mapIndex ∈ n.saved, ∃ y : CMasternodeIndex, y.Bijective ∧ y.mapIndex = mapIndex

variable {n n' : IndexNode} {es : List IndexEvent}

theorem Inv.step (h : Inv n) {e : IndexEvent} (hok : StepOk n e) :
    ∃ n', n.step e = some n' ∧ Inv n' ∧ (e ≠ .clear → n.index.Keeps n'.index) := by
  have hsame : n.index.Keeps n.index := fun i vin hget => ⟨vin, hget, rfl⟩
  cases e with
  | addMasternodeVIN vin =>
    have hadd : (n.index.addMasternodeVIN vin).Bijective := CMasternodeIndex.add_bijective h.index
    exact ⟨_, rfl, ⟨hadd, h.saved⟩, fun _ => .of_map h.index.toValid hadd.toValid fun i vin' => CMasternodeIndex.mapIndex_add_of_some⟩
  | clear => exact ⟨_, rfl, ⟨CMasternodeIndex.empty_bijective, h.saved⟩, fun hne => absurd rfl hne⟩
  | rebuildIndex =>
    have hrebuild := CMasternodeIndex.rebuild_bijective h.index rfl h.index.indexed
    exact ⟨_, rfl, ⟨hrebuild, h.saved⟩, fun _ => .of_map h.index.toValid hrebuild.toValid fun i vin hnum => hnum⟩
  | serialize => exact ⟨_, rfl, ⟨h.index, List.forall_mem_cons.2 ⟨⟨n.index, h.index, rfl⟩, h.saved⟩⟩, fun _ => hsame⟩
  | unserialize i =>
    cases hget : n.saved[i]? with
    | none => exact ⟨n, by rw [IndexNode.step, hget], h, fun _ => hsame⟩
    | some mapIndex =>
      obtain ⟨y, hy, rfl⟩ := h.saved _ (List.mem_of_getElem? hget)
      have hextends : n.index.Extends y.mapIndex := hok _ hget
      have hread : (n.index.unserialize y.mapIndex).Bijective :=
        CMasternodeIndex.rebuild_bijective hy rfl fun i vin hold => hextends.lookup (h.index.indexed i vin hold)
      exact ⟨{ n with index := n.index.unserialize y.mapIndex }, by rw [IndexNode.step, hget], ⟨hread, h.saved⟩,
        fun _ => .of_map h.index.toValid hread.toValid fun i vin hnum => hextends.lookup hnum⟩

theorem Inv.run (h : Inv n) (hmeets : Meets IndexNode.step StepOk n es) :
    ∃ n', run IndexNode.step n es = some n' ∧ Inv n' ∧ (.clear ∉ es → n.index.Keeps n'.index) := by
  induction es generalizing n with
  | nil => exact ⟨n, rfl, h, fun _ i vin hget => ⟨vin, hget, rfl⟩⟩
  | cons e es ih =>
    obtain ⟨n₁, hstep, hinv, hkeeps⟩ := h.step hmeets.1
    obtain ⟨n', hrun, hinv', hkeeps'⟩ := ih hinv (hmeets.2 n₁ hstep)
    refine ⟨n', by rw [run_cons, hstep, Option.bind_some, hrun], hinv', fun hclear => ?_⟩
    rw [List.mem_cons, not_or] at hclear
    exact (hkeeps (Ne.symm hclear.1)).trans (hkeeps' hclear.2)

theorem start_inv : Inv start := ⟨CMasternodeIndex.empty_bijective, by simp [start]⟩

/-- In a run whose reads meet their condition the maps are inverse bijections, and a number stays with its
    outpoint up to the next `Clear`. -/
theorem numbers_kept {es es' : List IndexEvent} (hmeets : Meets step StepOk start (es ++ es')) :
    ∃ n n', run step start es = some n ∧ run step start (es ++ es') = some n' ∧ n.index.Bijective ∧ n'.index.Bijective ∧
      (.clear ∉ es' → n.index.Keeps n'.index) := by
  obtain ⟨hfirst, hrest⟩ := meets_append.1 hmeets
  obtain ⟨n, hrun, hinv, -⟩ := start_inv.run hfirst
  obtain ⟨n', hrun', hinv', hkeeps⟩ := hinv.run (hrest n hrun)
  exact ⟨n, n', hrun, by rw [run_append, hrun, Option.bind_some, hrun'], hinv.index, hinv'.index, hkeeps⟩

/-! ## A number that is left behind -/

def numberedVin (k : Nat) : CTxIn := ⟨⟨9, k⟩, [], 0⟩

def written : List IndexEvent := [.addMasternodeVIN (numberedVin 0), .serialize]

def readAgain : List IndexEvent := [.unserialize 0, .rebuildIndex, .addMasternodeVIN (numberedVin 1)]

theorem numbers_kept_sample :
    ∃ n n', run step start written = some n ∧ run step start (written ++ readAgain) = some n' ∧ n.index.Bijective ∧
      n'.index.Bijective ∧ (.clear ∉ readAgain → n.index.Keeps n'.index) :=
  numbers_kept (by decide +kernel)

/-- A masternode that came after the map was written keeps its number in `mapReverseIndex` alone. -/
theorem number_left_behind :
    ∃ n, run step start [.addMasternodeVIN (numberedVin 0), .serialize, .addMasternodeVIN (numberedVin 1), .unserialize 0] = some n ∧
      n.index.get 1 = some (numberedVin 1) ∧ n.index.nSize = 1 ∧ n.index.mapIndex[numberedVin 1]? = none ∧ ¬ n.index.Bijective := by
  refine ⟨_, rfl, rfl, rfl, rfl, fun hbijective => ?_⟩
  have hnum := hbijective.indexed 1 (numberedVin 1) rfl
  cases hnum

end IndexNode

end Zumy.Masternode
