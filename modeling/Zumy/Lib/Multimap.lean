/-
  Zumy.Lib.Multimap — a multimap as the list of its entries in order, and maps that it
  inverts.

  A new entry stands behind those of its key. `Inverse m r`: the multimap has the entries of
  the map by their values; it stays so under an insertion into both (`Inverse.insert`) and an
  erasure from both (`Inverse.erase`), and its first entry is a lowest one (`Inverse.head_le`).
-/
import Mathlib.Data.List.Sort
import Zumy.Lib.OrdMap

namespace Zumy.Lib

abbrev Multimap (V K : Type*) := List (V × K)

variable {K V : Type*} [LinearOrder V]

namespace Multimap

def insert (r : Multimap V K) (p : V × K) : Multimap V K := r.orderedInsert (fun a b => a.1 < b.1) p

def Sorted (r : Multimap V K) : Prop := r.Pairwise fun a b => a.1 ≤ b.1

theorem perm_insert (r : Multimap V K) (p : V × K) : (r.insert p).Perm (p :: r) := List.perm_orderedInsert _ p r

theorem mem_insert {r : Multimap V K} {p q : V × K} : q ∈ r.insert p ↔ q = p ∨ q ∈ r := List.mem_orderedInsert _

theorem sorted_insert {r : Multimap V K} (h : r.Sorted) (p : V × K) : (r.insert p).Sorted := by
  unfold Sorted insert at *
  induction r with
  | nil => simp
  | cons q r ih =>
    obtain ⟨hq, hr⟩ := List.pairwise_cons.1 h
    rw [List.orderedInsert_cons]
    split
    · next hlt =>
      refine List.pairwise_cons.2 ⟨fun a ha => ?_, h⟩
      rcases List.mem_cons.1 ha with rfl | ha
      · exact hlt.le
      · exact hlt.le.trans (hq a ha)
    · next hle =>
      refine List.pairwise_cons.2 ⟨fun a ha => ?_, ih hr⟩
      rcases (List.mem_orderedInsert _).1 ha with rfl | ha
      · exact not_lt.1 hle
      · exact hq a ha

end Multimap

variable {cmp : K → K → Ordering} [Std.TransCmp cmp] [Std.LawfulEqCmp cmp]

structure Inverse (m : Std.TreeMap K V cmp) (r : Multimap V K) : Prop where
  sorted : r.Sorted
  perm : (r.map Prod.swap).Perm m.toList

variable {m : Std.TreeMap K V cmp} {r : Multimap V K} {k k' : K} {v v' w : V}

omit [Std.TransCmp cmp] [Std.LawfulEqCmp cmp] in
theorem inverse_empty : Inverse (∅ : Std.TreeMap K V cmp) [] := ⟨.nil, .refl []⟩

theorem Inverse.mem_iff (h : Inverse m r) : (v, k) ∈ r ↔ m[k]? = some v := by
  rw [← Std.TreeMap.mem_toList_iff_getElem?_eq_some, ← h.perm.mem_iff, List.mem_map]
  constructor
  · exact fun hmem => ⟨(v, k), hmem, rfl⟩
  · intro hex
    obtain ⟨⟨v', k'⟩, hmem, heq⟩ := hex
    cases heq
    exact hmem

omit [Std.LawfulEqCmp cmp] in
theorem Inverse.nodup (h : Inverse m r) : r.Nodup := List.Nodup.of_map Prod.swap (h.perm.nodup_iff.2 nodup_toList)

omit [Std.TransCmp cmp] [Std.LawfulEqCmp cmp] in
theorem Inverse.length_eq (h : Inverse m r) : r.length = m.size := by
  have hlength := h.perm.length_eq
  rwa [List.length_map, Std.TreeMap.length_toList] at hlength

theorem inverse_of_mem (hsorted : r.Sorted) (hnodup : r.Nodup) (hmem : ∀ v k, (v, k) ∈ r ↔ m[k]? = some v) : Inverse m r := by
  refine ⟨hsorted, (List.perm_ext_iff_of_nodup (hnodup.map Prod.swap_injective) nodup_toList).2 fun kv => ?_⟩
  obtain ⟨k, v⟩ := kv
  rw [Std.TreeMap.mem_toList_iff_getElem?_eq_some, ← hmem, List.mem_map]
  constructor
  · intro hex
    obtain ⟨⟨v', k'⟩, hin, heq⟩ := hex
    cases heq
    exact hin
  · exact fun hin => ⟨(v, k), hin, rfl⟩

theorem Inverse.head_le {p : V × K} (h : Inverse m (p :: r)) (hk : m[k]? = some v) : p.1 ≤ v := by
  rcases List.mem_cons.1 (h.mem_iff.2 hk) with rfl | hmem
  · exact le_refl _
  · exact (List.pairwise_cons.1 h.sorted).1 _ hmem

variable [DecidableEq K]

theorem Inverse.insert (h : Inverse m r) (hk : m[k]? = none) : Inverse (m.insert k v) (r.insert (v, k)) := by
  refine inverse_of_mem (Multimap.sorted_insert h.sorted _) ?_ fun w a => ?_
  · rw [(Multimap.perm_insert r (v, k)).nodup_iff, List.nodup_cons]
    refine ⟨fun hin => ?_, h.nodup⟩
    rw [h.mem_iff, hk] at hin
    cases hin
  · rw [Multimap.mem_insert, lookup_insert, h.mem_iff]
    by_cases ha : a = k
    · subst ha
      simp [hk, eq_comm]
    · simp [ha]

theorem Inverse.erase (h : Inverse m r) (hk : m[k]? = some v) : Inverse (m.erase k) (r.erase (v, k)) := by
  refine inverse_of_mem (h.sorted.sublist List.erase_sublist) (h.nodup.erase _) fun w a => ?_
  rw [h.nodup.mem_erase_iff, lookup_erase, h.mem_iff]
  by_cases ha : a = k
  · subst ha
    rw [if_pos rfl, hk]
    constructor
    · intro hboth
      obtain ⟨hne, heq⟩ := hboth
      cases heq
      exact absurd rfl hne
    · intro hnone
      cases hnone
  · rw [if_neg ha, and_iff_right]
    rintro heq
    exact ha (Prod.mk.inj heq).2

theorem Inverse.tail {p : V × K} (h : Inverse m (p :: r)) : Inverse (m.erase p.2) r := by
  have hp : m[p.2]? = some p.1 := h.mem_iff.1 List.mem_cons_self
  have herase := h.erase hp
  rwa [List.erase_cons_head] at herase

end Zumy.Lib
