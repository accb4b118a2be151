/-
  Zumy.Lib.MapSum — sums over the entries of an ordered map.

  `mapSum f m` adds `f k v` over the entries of `m`. A counter that a program keeps next to
  a map is such a sum; each lemma says what one update of the map adds to it or takes from
  it.

  - `mapSum_insert`, `mapSum_erase`: the sum after an update, as the sum of the others and
    the entry's own part.
  - `mapSum_eq_sum`: the sum over the keys.
-/
import Zumy.Lib.OrdMap
import Mathlib.Algebra.BigOperators.Group.Finset.Basic
import Mathlib.Algebra.BigOperators.Group.List.Basic
import Mathlib.Tactic.Abel

namespace Zumy.Lib

variable {K V M : Type*} {cmp : K → K → Ordering} [Std.TransCmp cmp] [Std.LawfulEqCmp cmp] [DecidableEq K]
variable {m : Std.TreeMap K V cmp} {k : K} {v v' : V}

def mapSum [Add M] [Zero M] (f : K → V → M) (m : Std.TreeMap K V cmp) : M := (m.toList.map fun kv => f kv.1 kv.2).sum

theorem nodup_cons_erase (v : V) : ((k, v) :: (m.erase k).toList).Nodup := by
  refine List.nodup_cons.2 ⟨?_, nodup_toList⟩
  rw [Std.TreeMap.mem_toList_iff_getElem?_eq_some, lookup_erase, if_pos rfl]
  nofun

theorem toList_insert_perm : (m.insert k v).toList.Perm ((k, v) :: (m.erase k).toList) := by
  rw [List.perm_ext_iff_of_nodup nodup_toList (nodup_cons_erase v)]
  intro ⟨a, b⟩
  rw [List.mem_cons, Std.TreeMap.mem_toList_iff_getElem?_eq_some, Std.TreeMap.mem_toList_iff_getElem?_eq_some, lookup_insert,
    lookup_erase]
  by_cases ha : a = k <;> simp [ha, eq_comm (a := v)]

theorem toList_perm_cons_erase (h : m[k]? = some v) : m.toList.Perm ((k, v) :: (m.erase k).toList) := by
  rw [List.perm_ext_iff_of_nodup nodup_toList (nodup_cons_erase v)]
  intro ⟨a, b⟩
  rw [List.mem_cons, Std.TreeMap.mem_toList_iff_getElem?_eq_some, Std.TreeMap.mem_toList_iff_getElem?_eq_some, lookup_erase]
  by_cases ha : a = k
  · simp [ha, h, eq_comm (a := v)]
  · simp [ha]

theorem toList_erase_perm (h : m[k]? = none) : (m.erase k).toList.Perm m.toList := by
  rw [List.perm_ext_iff_of_nodup nodup_toList nodup_toList]
  intro ⟨a, b⟩
  rw [Std.TreeMap.mem_toList_iff_getElem?_eq_some, Std.TreeMap.mem_toList_iff_getElem?_eq_some, lookup_erase]
  by_cases ha : a = k
  · simp [ha, h]
  · simp [ha]

omit [DecidableEq K] in
theorem toList_perm_of_lookup {m' : Std.TreeMap K V cmp} (h : ∀ k : K, m[k]? = m'[k]?) : m.toList.Perm m'.toList := by
  rw [List.perm_ext_iff_of_nodup nodup_toList nodup_toList]
  intro ⟨a, b⟩
  rw [Std.TreeMap.mem_toList_iff_getElem?_eq_some, Std.TreeMap.mem_toList_iff_getElem?_eq_some, h]

section Monoid

variable [AddCommMonoid M] (f : K → V → M)

theorem mapSum_insert : mapSum f (m.insert k v) = f k v + mapSum f (m.erase k) := by
  unfold mapSum
  rw [(toList_insert_perm.map _).sum_eq, List.map_cons, List.sum_cons]

theorem mapSum_erase (h : m[k]? = some v) : mapSum f m = f k v + mapSum f (m.erase k) := by
  unfold mapSum
  rw [((toList_perm_cons_erase h).map _).sum_eq, List.map_cons, List.sum_cons]

theorem mapSum_erase_of_none (h : m[k]? = none) : mapSum f (m.erase k) = mapSum f m := by
  unfold mapSum
  rw [((toList_erase_perm h).map _).sum_eq]

theorem mapSum_insert_new (h : m[k]? = none) : mapSum f (m.insert k v) = f k v + mapSum f m := by
  rw [mapSum_insert, mapSum_erase_of_none f h]

theorem mapSum_insertIfNew (h : m[k]? = none) : mapSum f (m.insertIfNew k v) = f k v + mapSum f m := by
  have hsame (a : K) : (m.insertIfNew k v)[a]? = (m.insert k v)[a]? := by
    rw [lookup_insertIfNew, lookup_insert]
    simp [h]
  rw [← mapSum_insert_new f h, mapSum, mapSum, ((toList_perm_of_lookup hsame).map _).sum_eq]

omit [DecidableEq K] in
theorem mapSum_congr {g : K → V → M} (h : ∀ k v, m[k]? = some v → f k v = g k v) : mapSum f m = mapSum g m := by
  unfold mapSum
  congr 1
  apply List.map_congr_left
  intro kv hkv
  exact h kv.1 kv.2 (Std.TreeMap.mem_toList_iff_getElem?_eq_some.1 hkv)

theorem mapSum_eq_sum : mapSum f m = ∑ k ∈ m.keys.toFinset, (m[k]?).elim 0 (f k) := by
  rw [List.sum_toFinset _ Std.TreeMap.nodup_keys, ← Std.TreeMap.map_fst_toList_eq_keys, List.map_map, mapSum]
  congr 1
  apply List.map_congr_left
  intro kv hkv
  rw [Function.comp_apply, Std.TreeMap.mem_toList_iff_getElem?_eq_some.1 hkv]
  rfl

end Monoid

end Zumy.Lib
