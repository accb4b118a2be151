/-
  Zumy.Masternode.Index — `CMasternodeIndex`, the numbering of the masternodes.

  A masternode keeps the number it got until the index is cleared. Inputs are compared
  by their outpoint, so the index has one number an outpoint.
-/
import Zumy.Primitives
import Zumy.Lib.OrdMap

namespace Zumy.Masternode

open Lib

structure CMasternodeIndex where
  nSize : Int
  mapIndex : Map CTxIn Int
  mapReverseIndex : Map Int CTxIn

namespace CMasternodeIndex

def empty : CMasternodeIndex := ⟨0, ∅, ∅⟩

def getSize (x : CMasternodeIndex) : Int := x.nSize
def get (x : CMasternodeIndex) (nIndex : Int) : Option CTxIn := x.mapReverseIndex[nIndex]?
def getMasternodeIndex (x : CMasternodeIndex) (vin : CTxIn) : Int := x.mapIndex[vin]?.getD (-1)

def addMasternodeVIN (x : CMasternodeIndex) (vin : CTxIn) : CMasternodeIndex :=
  match x.mapIndex[vin]? with
  | some _ => x
  | none => ⟨x.nSize + 1, x.mapIndex.insert vin x.nSize, x.mapReverseIndex.insert x.nSize vin⟩

structure Valid (x : CMasternodeIndex) : Prop where
  size : 0 ≤ x.nSize
  bounded : ∀ (vin : CTxIn) (i : Int), x.mapIndex[vin]? = some i → 0 ≤ i ∧ i < x.nSize
  reversed : ∀ (vin : CTxIn) (i : Int), x.mapIndex[vin]? = some i → ∃ vin', x.get i = some vin' ∧ vin'.prevout = vin.prevout
  indexed : ∀ (i : Int) (vin : CTxIn), x.get i = some vin → x.mapIndex[vin]? = some i

theorem empty_valid : empty.Valid where
  size := le_rfl
  bounded vin i h := by simp [empty] at h
  reversed vin i h := by simp [empty] at h
  indexed i vin h := by simp [empty, get] at h

variable {x : CMasternodeIndex} {vin : CTxIn}

theorem mapIndex_congr {vin' : CTxIn} (h : vin.prevout = vin'.prevout) : x.mapIndex[vin]? = x.mapIndex[vin']? :=
  Std.TreeMap.getElem?_congr (CTxIn.compare_eq_iff.2 h)

theorem mapIndex_add : (x.addMasternodeVIN vin).mapIndex[vin]?.isSome := by
  unfold addMasternodeVIN
  split
  · rename_i h; rw [h]; rfl
  · simp

theorem mapIndex_add_of_some {vin' : CTxIn} {i : Int} (h : x.mapIndex[vin']? = some i) :
    (x.addMasternodeVIN vin).mapIndex[vin']? = some i := by
  unfold addMasternodeVIN
  split
  · exact h
  · rename_i hnone
    rw [Std.TreeMap.getElem?_insert, if_neg, h]
    intro hcmp
    rw [Std.TreeMap.getElem?_congr hcmp, h] at hnone
    cases hnone

theorem mapIndex_add_eq_some {vin' : CTxIn} {i : Int} (h : (x.addMasternodeVIN vin).mapIndex[vin']? = some i) :
    x.mapIndex[vin']? = some i ∨ (x.mapIndex[vin']? = none ∧ vin'.prevout = vin.prevout ∧ i = x.nSize) := by
  unfold addMasternodeVIN at h
  split at h
  · exact .inl h
  · rename_i hnone
    rw [Std.TreeMap.getElem?_insert] at h
    split at h
    · rename_i hcmp
      cases h
      exact .inr ⟨by rw [← Std.TreeMap.getElem?_congr hcmp]; exact hnone, (CTxIn.compare_eq_iff.1 hcmp).symm, rfl⟩
    · exact .inl h

theorem add_valid (hx : x.Valid) : (x.addMasternodeVIN vin).Valid := by
  cases hnone : x.mapIndex[vin]? with
  | some i => simpa [addMasternodeVIN, hnone] using hx
  | none =>
    have hadd : x.addMasternodeVIN vin = ⟨x.nSize + 1, x.mapIndex.insert vin x.nSize, x.mapReverseIndex.insert x.nSize vin⟩ := by
      simp only [addMasternodeVIN, hnone]
    have hget (i : Int) : (x.addMasternodeVIN vin).get i = if i = x.nSize then some vin else x.get i := by
      rw [hadd]
      exact lookup_insert
    have hsize : (x.addMasternodeVIN vin).nSize = x.nSize + 1 := by rw [hadd]
    refine ⟨by rw [hsize]; have := hx.size; omega, fun vin' i h => ?_, fun vin' i h => ?_, fun i vin' h => ?_⟩
    · rw [hsize]
      rcases mapIndex_add_eq_some h with h | ⟨-, -, rfl⟩
      · have hi := hx.bounded vin' i h
        omega
      · have hs := hx.size
        omega
    · rcases mapIndex_add_eq_some h with h | ⟨-, hp, rfl⟩
      · obtain ⟨w, hw, hwp⟩ := hx.reversed vin' i h
        have hi := hx.bounded vin' i h
        exact ⟨w, by rw [hget, if_neg (by omega)]; exact hw, hwp⟩
      · exact ⟨vin, by rw [hget, if_pos rfl], hp.symm⟩
    · rw [hget] at h
      split at h
      · rename_i hi
        cases h
        rw [hadd, hi]
        simp
      · exact mapIndex_add_of_some (hx.indexed i vin' h)

theorem mapIndex_add_isSome {vin' : CTxIn} (h : x.mapIndex[vin']?.isSome) : (x.addMasternodeVIN vin).mapIndex[vin']?.isSome := by
  obtain ⟨i, hi⟩ := Option.isSome_iff_exists.1 h
  rw [mapIndex_add_of_some hi]
  rfl

theorem get_add_isSome (hx : x.Valid) {i : Int} (h : (x.get i).isSome) : ((x.addMasternodeVIN vin).get i).isSome := by
  obtain ⟨w, hw⟩ := Option.isSome_iff_exists.1 h
  have hadd : (x.addMasternodeVIN vin).Valid := add_valid hx
  obtain ⟨w', hw', -⟩ := hadd.reversed w i (mapIndex_add_of_some (hx.indexed i w hw))
  rw [hw']
  rfl

theorem foldl_add_valid (hx : x.Valid) (vins : List CTxIn) : (vins.foldl addMasternodeVIN x).Valid := by
  induction vins generalizing x with
  | nil => exact hx
  | cons vin vins ih => exact ih (add_valid hx)

theorem nSize_foldl_add_le (vins : List CTxIn) : (vins.foldl addMasternodeVIN x).nSize ≤ x.nSize + vins.length := by
  induction vins generalizing x with
  | nil => simp
  | cons vin vins ih =>
    have hadd : (x.addMasternodeVIN vin).nSize ≤ x.nSize + 1 := by
      unfold addMasternodeVIN
      split
      · omega
      · exact le_rfl
    have hrest := ih (x := x.addMasternodeVIN vin)
    simp only [List.foldl_cons, List.length_cons]
    push_cast
    omega

theorem mapIndex_foldl_add {vins : List CTxIn} (h : vin ∈ vins) : (vins.foldl addMasternodeVIN x).mapIndex[vin]?.isSome := by
  have hkeep (vins : List CTxIn) (x : CMasternodeIndex) (h : x.mapIndex[vin]?.isSome) :
      (vins.foldl addMasternodeVIN x).mapIndex[vin]?.isSome := by
    induction vins generalizing x with
    | nil => exact h
    | cons w vins ih => exact ih _ (mapIndex_add_isSome h)
  induction vins generalizing x with
  | nil => cases h
  | cons w vins ih =>
    rcases List.mem_cons.1 h with rfl | h
    · exact hkeep vins _ mapIndex_add
    · exact ih h

theorem Valid.mapIndex_iff (hx : x.Valid) {i : Int} (hi : x.mapIndex[vin]? = some i) {vin' : CTxIn} :
    x.mapIndex[vin']? = some i ↔ vin'.prevout = vin.prevout := by
  constructor
  · intro h
    obtain ⟨w, hw, hwp⟩ := hx.reversed vin i hi
    obtain ⟨w', hw', hwp'⟩ := hx.reversed vin' i h
    rw [hw] at hw'
    cases hw'
    rw [← hwp', hwp]
  · intro h
    rw [mapIndex_congr h, hi]

end CMasternodeIndex

end Zumy.Masternode
